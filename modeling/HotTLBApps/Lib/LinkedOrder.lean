import Mathlib.Order.OrderDual
import Mathlib.Tactic

/-!
# Linked lists in an order

The nodes of a linked list have positions, and the pointer of a node leads to the next one.  A
doubly linked list has two such pointers, and the second one leads in the dual order.
-/

namespace HotTLBApps.LinkedOrder

open OrderDual

variable {ω ι : Type} [LinearOrder ι]

/-- The pointer of every node leads to the first node behind it. -/
structure Leads (Node : ω → Prop) (pos : ω → ι) (next : ω → Option ω) : Prop where
  mem : ∀ u v, Node u → next u = some v → Node v ∧ pos u < pos v
  least : ∀ u w, Node u → Node w → pos u < pos w → ∃ v, next u = some v ∧ pos v ≤ pos w

variable {Node Node' : ω → Prop} {pos pos' : ω → ι}
  {next next' prev prev' : ω → Option ω} {tail : Option ω} {u w : ω}

/-- **The pointers of a doubly linked list lead back.** -/
theorem Leads.back
    (hnext : Leads Node pos next)
    (hprev : Leads Node (toDual ∘ pos) prev)
    (hinj : ∀ u w, Node u → Node w → pos u = pos w → u = w)
    (hu : Node u)
    (huw : next u = some w) : prev w = some u := by
  obtain ⟨hw, hlt⟩ := hnext.mem u w hu huw
  obtain ⟨v, hv, huv⟩ := hprev.least w u hw hu hlt
  obtain ⟨hnode, hvw⟩ := hprev.mem w v hw hv
  rcases lt_or_eq_of_le (toDual_le_toDual.mp huv) with hbetween | heq
  · -- a node between `u` and `w` is not before the next one of `u`
    obtain ⟨x, hx, hxv⟩ := hnext.least u v hu hnode hbetween
    rw [Option.some.inj (hx.symm.trans huw)] at hxv
    exact absurd (toDual_lt_toDual.mp hvw) (not_lt_of_ge hxv)
  · rw [hv, hinj u v hu hnode heq]

/-- A node is taken out, and the pointer to it leads to the node behind it. -/
theorem Leads.remove [DecidableEq ω]
    (h : Leads Node pos next)
    (hinj : ∀ u w, Node u → Node w → pos u = pos w → u = w)
    (hw : Node w)
    (hnode : ∀ u, Node' u ↔ Node u ∧ u ≠ w)
    (hnext : ∀ u, Node u → next' u = if next u = some w then next w else next u) :
    Leads Node' pos next' where
  mem := by
    intro u v hu hv
    obtain ⟨hu, -⟩ := (hnode u).mp hu
    rw [hnext u hu] at hv
    rw [hnode]
    split_ifs at hv with hbefore
    · obtain ⟨-, huw⟩ := h.mem u w hu hbefore
      obtain ⟨hv, hwv⟩ := h.mem w v hw hv
      exact ⟨⟨hv, fun heq => lt_irrefl _ (heq ▸ hwv)⟩, huw.trans hwv⟩
    · obtain ⟨hnode, huv⟩ := h.mem u v hu hv
      exact ⟨⟨hnode, fun heq => hbefore (heq ▸ hv)⟩, huv⟩
  least := by
    intro u v hu hv huv
    obtain ⟨hu, -⟩ := (hnode u).mp hu
    obtain ⟨hv, hvw⟩ := (hnode v).mp hv
    obtain ⟨x, hx, hxv⟩ := h.least u v hu hv huv
    rw [hnext u hu]
    split_ifs with hbefore
    · -- `w` was the next one, and `v` is behind it
      rw [Option.some.inj (hx.symm.trans hbefore)] at hxv
      exact h.least w v hw hv (lt_of_le_of_ne hxv fun heq => hvw (hinj v w hv hw heq.symm))
    · exact ⟨x, hx, hxv⟩

/-- A pointer to the last node. -/
structure Tail (Node : ω → Prop) (pos : ω → ι) (tail : Option ω) : Prop where
  mem : ∀ w, tail = some w → Node w
  greatest : ∀ u, Node u → ∃ w, tail = some w ∧ pos u ≤ pos w

section

/-! A list with new positions, in which they are the same for the nodes. -/

variable (hpos : ∀ u, Node u → pos' u = pos u)
include hpos

theorem Leads.congr (h : Leads Node pos next) : Leads Node pos' next where
  mem := by
    intro u v hu hv
    obtain ⟨hnode, huv⟩ := h.mem u v hu hv
    rw [hpos u hu, hpos v hnode]
    exact ⟨hnode, huv⟩
  least := by
    intro u w hu hw huw
    rw [hpos u hu, hpos w hw] at huw
    obtain ⟨v, hv, hvw⟩ := h.least u w hu hw huw
    refine ⟨v, hv, ?_⟩
    rwa [hpos v (h.mem u v hu hv).1, hpos w hw]

theorem Tail.congr (h : Tail Node pos tail) : Tail Node pos' tail where
  mem := h.mem
  greatest := by
    intro u hu
    obtain ⟨w, hw, huw⟩ := h.greatest u hu
    refine ⟨w, hw, ?_⟩
    rwa [hpos u hu, hpos w (h.mem w hw)]

end

section

/-! A node is put behind the tail. -/

variable
  (htail : Tail Node pos tail)
  (hpos : ∀ u, Node u → pos u < pos w)
  (hnode : ∀ u, Node' u ↔ Node u ∨ u = w)
include htail hpos hnode

theorem Leads.append [DecidableEq ω]
    (h : Leads Node pos next)
    (hinj : ∀ u w, Node u → Node w → pos u = pos w → u = w)
    (hnext : ∀ u, Node u → next' u = if tail = some u then some w else next u)
    (hlast : next' w = none) : Leads Node' pos next' where
  mem := by
    intro u v hu hv
    rw [hnode]
    rcases (hnode u).mp hu with hu | rfl
    · rw [hnext u hu] at hv
      split_ifs at hv with hend
      · cases hv
        exact ⟨.inr rfl, hpos u hu⟩
      · exact (h.mem u v hu hv).imp_left .inl
    · rw [hlast] at hv
      cases hv
  least := by
    intro u v hu hv huv
    rcases (hnode u).mp hu with hu | rfl
    · obtain ⟨t, ht, hut⟩ := htail.greatest u hu
      have ht' := htail.mem t ht
      rw [hnext u hu]
      split_ifs with hend
      · -- nothing but `w` is behind the tail
        rcases (hnode v).mp hv with hv | rfl
        · obtain ⟨x, hx, hvx⟩ := htail.greatest v hv
          rw [Option.some.inj (hx.symm.trans hend)] at hvx
          exact absurd huv (not_lt_of_ge hvx)
        · exact ⟨_, rfl, le_rfl⟩
      · rcases (hnode v).mp hv with hv | rfl
        · exact h.least u v hu hv huv
        · have hne : pos u ≠ pos t := fun heq => hend (hinj u t hu ht' heq ▸ ht)
          obtain ⟨x, hx, hxt⟩ := h.least u t hu ht' (lt_of_le_of_ne hut hne)
          exact ⟨x, hx, hxt.trans (hpos t ht').le⟩
    · rcases (hnode v).mp hv with hv | rfl
      · exact absurd (hpos v hv) huv.asymm
      · exact absurd huv (lt_irrefl _)

/-- The pointers the other way. -/
theorem Leads.append_back
    (h : Leads Node (toDual ∘ pos) prev)
    (hprev : ∀ u, Node u → prev' u = prev u)
    (hfirst : prev' w = tail) : Leads Node' (toDual ∘ pos) prev' where
  mem := by
    intro u v hu hv
    rw [hnode]
    rcases (hnode u).mp hu with hu | rfl
    · rw [hprev u hu] at hv
      exact (h.mem u v hu hv).imp_left .inl
    · have hv := htail.mem v (hfirst.symm.trans hv)
      exact ⟨.inl hv, hpos v hv⟩
  least := by
    intro u v hu hv hvu
    rcases (hnode v).mp hv with hv | rfl
    · rcases (hnode u).mp hu with hu | rfl
      · rw [hprev u hu]
        exact h.least u v hu hv hvu
      · rw [hfirst]
        exact htail.greatest v hv
    · rcases (hnode u).mp hu with hu | rfl
      · exact absurd (hpos u hu) hvu.asymm
      · exact absurd hvu (lt_irrefl _)

end

end HotTLBApps.LinkedOrder
