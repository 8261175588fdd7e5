import Mathlib.Tactic

/-!
# PebblesDB: internal keys (`db/dbformat.h`)

An internal key is a user key with a sequence number and a value type.  User
keys are of any linearly ordered type, which stands for the user comparator.

Internal keys are ordered by increasing user key and, among equal user keys, by
decreasing tag: the newest entry of a user key comes first.
-/

namespace HotTLBApps.PebblesDB

universe u

inductive ValueType
  | kTypeDeletion
  | kTypeValue
  | kTypeGuard
deriving DecidableEq, Repr

/-- The byte stored for a value type. -/
def ValueType.toNat : ValueType → Nat
  | .kTypeDeletion => 0
  | .kTypeValue => 1
  | .kTypeGuard => 2

theorem ValueType.toNat_injective : Function.Injective ValueType.toNat := by
  intro a b h
  cases a <;> cases b <;> first | rfl | cases h

def kValueTypeForSeek : ValueType := .kTypeValue

def kMaxSequenceNumber : Nat := 2 ^ 56 - 1

def packSequenceAndType (sequence : Nat) (t : ValueType) : Nat :=
  sequence * 256 + t.toNat

@[ext]
structure InternalKey (K : Type u) where
  userKey : K
  sequence : Nat
  type : ValueType
deriving DecidableEq, Repr

namespace InternalKey

variable {K : Type u}

/-- The last eight bytes of the key, as a number. -/
def tag (k : InternalKey K) : Nat :=
  packSequenceAndType k.sequence k.type

variable {a b : InternalKey K}

theorem eq_of_tag_eq (huser : a.userKey = b.userKey) (htag : a.tag = b.tag) : a = b := by
  have hbound : ∀ t : ValueType, t.toNat < 256 := by
    intro t
    cases t <;> decide
  have ha := hbound a.type
  have hb := hbound b.type
  simp only [tag, packSequenceAndType] at htag
  have htype : a.type = b.type := by
    apply ValueType.toNat_injective
    omega
  ext
  · exact huser
  · omega
  · exact htype

/-- The place of a key in the internal order. -/
def rank (k : InternalKey K) : K ×ₗ Natᵒᵈ :=
  toLex (k.userKey, OrderDual.toDual k.tag)

theorem rank_injective : Function.Injective (rank : InternalKey K → K ×ₗ Natᵒᵈ) := by
  intro a b h
  have hpair := Prod.mk.inj (toLex_inj.mp h)
  exact eq_of_tag_eq hpair.1 (OrderDual.toDual_inj.mp hpair.2)

variable [LinearOrder K]

/-- `InternalKeyComparator::Compare` as an order. -/
instance : LinearOrder (InternalKey K) :=
  LinearOrder.lift' rank rank_injective

/-- `icmp.Compare(a, b) < 0`. -/
theorem lt_iff :
    a < b ↔ a.userKey < b.userKey ∨ a.userKey = b.userKey ∧ b.tag < a.tag := by
  change a.rank < b.rank ↔ _
  rw [rank, rank, Prod.Lex.toLex_lt_toLex]
  rfl

theorem userKey_le_of_le (h : a ≤ b) : a.userKey ≤ b.userKey := by
  by_contra hlt
  exact absurd h (not_le.mpr (lt_iff.mpr (.inl (not_le.mp hlt))))

theorem lt_of_userKey_lt (h : a.userKey < b.userKey) : a < b :=
  lt_iff.mpr (.inl h)

end InternalKey

end HotTLBApps.PebblesDB
