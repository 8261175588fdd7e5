import Mathlib.Tactic

/-!
# Walks with lengths, and distances

The edges of a graph are a relation `E u v w`: an edge from `u` to `v` of length `w`.
A walk grows at its end; the distance is the least length of a walk.

`IsDist.exists_pred`: a shortest walk to a vertex ends with an edge from a vertex that
is nearer by the length of the edge.
-/

namespace HotTLBApps.Walks

universe u

variable {V : Type u}

/-- There is a walk of some length from the source to a vertex. -/
inductive Walk (E : V → V → Nat → Prop) (s : V) : V → Nat → Prop
  | nil : Walk E s s 0
  | snoc {u v : V} {k w : Nat} : Walk E s u k → E u v w → Walk E s v (k + w)

/-- The least length of a walk. -/
def IsDist (E : V → V → Nat → Prop) (s v : V) (d : Nat) : Prop :=
  IsLeast {k | Walk E s v k} d

variable {E : V → V → Nat → Prop} {s u v : V} {d d' k w : Nat}

theorem IsDist.walk (h : IsDist E s v d) : Walk E s v d :=
  h.1

theorem IsDist.le_of_walk (h : IsDist E s v d) (hwalk : Walk E s v k) : d ≤ k :=
  h.2 hwalk

theorem IsDist.unique (h : IsDist E s v d) (h' : IsDist E s v d') : d = d' :=
  IsLeast.unique h h'

theorem isDist_source : IsDist E s s 0 :=
  ⟨.nil, fun _ _ => Nat.zero_le _⟩

theorem exists_isDist (h : Walk E s v k) : ∃ d ≤ k, IsDist E s v d := by
  classical
  have hne : ∃ k, Walk E s v k := ⟨k, h⟩
  exact ⟨Nat.find hne, Nat.find_le h, Nat.find_spec hne, fun _ hk => Nat.find_le hk⟩

/-- **The last edge of a shortest walk.** -/
theorem IsDist.exists_pred (h : IsDist E s v d) :
    (v = s ∧ d = 0) ∨ ∃ u w d', E u v w ∧ IsDist E s u d' ∧ d = d' + w := by
  cases h.walk with
  | nil => exact .inl ⟨rfl, rfl⟩
  | @snoc u _ k w hwalk hedge =>
    obtain ⟨d', hle, hd'⟩ := exists_isDist hwalk
    have hlow := h.le_of_walk (hd'.walk.snoc hedge)
    exact .inr ⟨u, w, d', hedge, hd', by omega⟩

/-- **Labels that no edge can improve** are at most the lengths of the walks below the
bound. -/
theorem label_le_of_walk {f : V → Nat} {bound : Nat} (hsource : f s = 0)
    (hrelaxed : ∀ u v w, E u v w → f u < bound → f v ≤ f u + w) (h : Walk E s v k)
    (hk : k < bound) : f v ≤ k := by
  induction h with
  | nil => exact hsource.le
  | @snoc u v k w _ hedge ih =>
    have hv := hrelaxed u v w hedge (by omega)
    omega

/-- Labels that are lengths of walks and that no edge can improve are the distances, up
to the bound. -/
theorem label_eq_min {f : V → Nat} {bound : Nat} (hsource : f s = 0) (hle : ∀ v, f v ≤ bound)
    (hwalk : ∀ v, f v < bound → Walk E s v (f v))
    (hrelaxed : ∀ u v w, E u v w → f u < bound → f v ≤ f u + w) (v : V) :
    (∃ d, IsDist E s v d ∧ f v = min d bound) ∨ ((¬ ∃ k, Walk E s v k) ∧ f v = bound) := by
  by_cases hreach : ∃ k, Walk E s v k
  · obtain ⟨k, hk⟩ := hreach
    obtain ⟨d, -, hd⟩ := exists_isDist hk
    refine .inl ⟨d, hd, ?_⟩
    obtain hlt | hge := Nat.lt_or_ge d bound
    · have hlow := label_le_of_walk hsource hrelaxed hd.walk hlt
      have hhigh := hd.le_of_walk (hwalk v (by omega))
      omega
    · have hv := hle v
      by_contra hne
      have hlow := hd.le_of_walk (hwalk v (by omega))
      omega
  · refine .inr ⟨hreach, ?_⟩
    have hv := hle v
    by_contra hne
    exact hreach ⟨f v, hwalk v (by omega)⟩

end HotTLBApps.Walks
