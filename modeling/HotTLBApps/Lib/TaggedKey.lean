import Mathlib.Tactic

/-!
# Keys with a sequence number and a type

The internal keys of a log-structured store: a user key, a sequence number and the type of
the entry.  The last two are packed into one number, the tag, with the type in its lowest
byte.  Keys are ordered by increasing user key and, among equal user keys, by decreasing
tag, so that the newest entry of a user key comes first.

The types differ from store to store; `TypeByte` gives the byte of each.
-/

namespace HotTLBApps

/-- Types that are stored as a byte. -/
class TypeByte (T : Type*) where
  toNat : T → Nat
  injective : Function.Injective toNat
  lt : ∀ t, toNat t < 256

/-- A user key with a sequence number and a type. -/
@[ext]
structure TaggedKey (K T : Type*) where
  userKey : K
  sequence : Nat
  type : T
deriving DecidableEq, Repr

namespace TaggedKey

variable {K T : Type*} [TypeByte T]

/-- The sequence number and the type, packed. -/
def tag (k : TaggedKey K T) : Nat :=
  k.sequence * 256 + TypeByte.toNat k.type

variable {a b : TaggedKey K T}

theorem eq_of_tag_eq (huser : a.userKey = b.userKey) (htag : a.tag = b.tag) : a = b := by
  have ha := TypeByte.lt a.type
  have hb := TypeByte.lt b.type
  simp only [tag] at htag
  have htype : a.type = b.type := by
    apply TypeByte.injective
    omega
  ext
  · exact huser
  · omega
  · exact htype

/-- The place of a key in the order. -/
def rank (k : TaggedKey K T) : K ×ₗ Natᵒᵈ :=
  toLex (k.userKey, OrderDual.toDual k.tag)

theorem rank_injective : Function.Injective (rank : TaggedKey K T → K ×ₗ Natᵒᵈ) := by
  intro a b h
  have hpair := Prod.mk.inj (toLex_inj.mp h)
  exact eq_of_tag_eq hpair.1 (OrderDual.toDual_inj.mp hpair.2)

variable [LinearOrder K]

instance : LinearOrder (TaggedKey K T) :=
  LinearOrder.lift' rank rank_injective

theorem lt_iff : a < b ↔ a.userKey < b.userKey ∨ a.userKey = b.userKey ∧ b.tag < a.tag := by
  change a.rank < b.rank ↔ _
  rw [rank, rank, Prod.Lex.toLex_lt_toLex]
  rfl

theorem userKey_le_of_le (h : a ≤ b) : a.userKey ≤ b.userKey := by
  by_contra hlt
  exact absurd h (not_le.mpr (lt_iff.mpr (.inl (not_le.mp hlt))))

/-- A key whose type is the greatest stands before the keys of its user key that are not
newer. -/
theorem le_iff_sequence_le {seek k : TaggedKey K T}
    (hgreatest : TypeByte.toNat k.type ≤ TypeByte.toNat seek.type)
    (huser : k.userKey = seek.userKey) : seek ≤ k ↔ k.sequence ≤ seek.sequence := by
  have hseek := TypeByte.lt seek.type
  rw [← not_lt, lt_iff]
  simp only [huser, lt_irrefl, true_and, false_or, tag, not_lt]
  omega

end TaggedKey
end HotTLBApps
