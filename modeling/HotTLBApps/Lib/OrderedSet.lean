import Mathlib.Tactic

/-!
# Ordered sets and merges of sorted lists

An ordered set of values is a list that increases strictly by a key.  Two values
with one key count as one element, and inserting a value whose key is present
changes nothing; this is how ordered containers behave whose comparison looks
only at a part of the value.

* `insert`: insertion into an ordered set;
* `merge base added`: the sequence in which a sorted list and an ordered set are
  visited when, for every element of the set, the elements of the list that are
  not greater come first.
-/

namespace HotTLBApps.OrderedSet

open List

universe u v w

variable {α : Type u} {κ : Type v} [LinearOrder κ] (key : α → κ)

/-- The list increases strictly by key. -/
def Increasing (l : List α) : Prop :=
  l.Pairwise fun a b => key a < key b

/-- The list does not decrease by key. -/
def Nondecreasing (l : List α) : Prop :=
  l.Pairwise fun a b => key a ≤ key b

/-- Insertion; a value whose key is present is dropped. -/
def insert (a : α) : List α → List α
  | [] => [a]
  | b :: l =>
      if key a < key b then
        a :: b :: l
      else if key b < key a then
        b :: insert a l
      else
        b :: l

/-- Insertion of one value after another. -/
def insertAll (l : List α) (as : List α) : List α :=
  as.foldl (fun s a => insert key a s) l

/-- Before every element of `added` come the elements of `base` that are not
greater and were not visited yet. -/
def merge : List α → List α → List α
  | base, [] => base
  | base, a :: added =>
      base.takeWhile (fun b => !decide (key a < key b)) ++
        a :: merge (base.dropWhile fun b => !decide (key a < key b)) added

section Insert

variable {key}
variable {a b : α} {l : List α}

theorem mem_of_mem_insert (h : b ∈ insert key a l) : b = a ∨ b ∈ l := by
  induction l with
  | nil => exact .inl (mem_singleton.mp h)
  | cons c l ih =>
    rw [insert] at h
    split_ifs at h
    · exact mem_cons.mp h
    · obtain rfl | h := mem_cons.mp h
      · exact .inr mem_cons_self
      · obtain rfl | h := ih h
        · exact .inl rfl
        · exact .inr (mem_cons_of_mem _ h)
    · exact .inr h

theorem mem_map_insert {k : κ} : k ∈ (insert key a l).map key ↔ k = key a ∨ k ∈ l.map key := by
  induction l with
  | nil => simp [insert]
  | cons c l ih =>
    rw [insert]
    split_ifs with hlt hgt
    · simp
    · simp only [map_cons, mem_cons, ih]
      tauto
    · have hc := le_antisymm (not_lt.mp hlt) (not_lt.mp hgt)
      simp only [map_cons, mem_cons, hc]
      tauto

theorem increasing_insert (h : Increasing key l) : Increasing key (insert key a l) := by
  induction l with
  | nil => exact pairwise_singleton _ _
  | cons c l ih =>
    obtain ⟨hhead, htail⟩ := pairwise_cons.mp h
    rw [insert]
    split_ifs with hlt hgt
    · refine pairwise_cons.mpr ⟨?_, h⟩
      intro d hd
      obtain rfl | hd := mem_cons.mp hd
      · exact hlt
      · exact hlt.trans (hhead d hd)
    · refine pairwise_cons.mpr ⟨?_, ih htail⟩
      intro d hd
      obtain rfl | hd := mem_of_mem_insert hd
      · exact hgt
      · exact hhead d hd
    · exact h

theorem insert_perm (h : ∀ c ∈ l, key c ≠ key a) : (insert key a l).Perm (a :: l) := by
  induction l with
  | nil => exact Perm.refl _
  | cons c l ih =>
    have hc := h c mem_cons_self
    have hl := fun d hd => h d (mem_cons_of_mem _ hd)
    rw [insert]
    split_ifs with hlt hgt
    · exact Perm.refl _
    · exact ((ih hl).cons c).trans (Perm.swap a c l)
    · exact absurd (le_antisymm (not_lt.mp hlt) (not_lt.mp hgt)) hc

variable {as : List α}

theorem mem_of_mem_insertAll (h : b ∈ insertAll key l as) : b ∈ l ∨ b ∈ as := by
  induction as generalizing l with
  | nil => exact .inl h
  | cons a as ih =>
    obtain h | h := ih h
    · obtain rfl | h := mem_of_mem_insert h
      · exact .inr mem_cons_self
      · exact .inl h
    · exact .inr (mem_cons_of_mem _ h)

theorem insertAll_perm (hnodup : ((l ++ as).map key).Nodup) :
    (insertAll key l as).Perm (l ++ as) := by
  induction as generalizing l with
  | nil => simp [insertAll]
  | cons a as ih =>
    have hmiddle : (l ++ a :: as).Perm (a :: l ++ as) := perm_middle
    have hnodup' := (hmiddle.map key).nodup_iff.mp hnodup
    have hnew : ∀ c ∈ l, key c ≠ key a := by
      intro c hc heq
      rw [cons_append, map_cons, nodup_cons] at hnodup'
      exact hnodup'.1 (heq ▸ mem_map_of_mem (mem_append_left _ hc))
    have hperm := (insert_perm hnew).append_right as
    have hrest := ih ((hperm.map key).nodup_iff.mpr hnodup')
    exact hrest.trans (hperm.trans hmiddle.symm)

theorem increasing_insertAll (as : List α) (h : Increasing key l) :
    Increasing key (insertAll key l as) := by
  induction as generalizing l with
  | nil => exact h
  | cons a as ih => exact ih (increasing_insert h)

theorem mem_map_insertAll (as : List α) {k : κ} :
    k ∈ (insertAll key l as).map key ↔ k ∈ as.map key ∨ k ∈ l.map key := by
  induction as generalizing l with
  | nil => simp [insertAll]
  | cons a as ih =>
    change k ∈ (insertAll key (insert key a l) as).map key ↔ _
    rw [ih, mem_map_insert, map_cons, mem_cons]
    tauto

end Insert

section Merge

variable {key}

theorem merge_perm (base added : List α) : (merge key base added).Perm (base ++ added) := by
  induction added generalizing base with
  | nil => simp [merge]
  | cons a added ih =>
    have hsplit := takeWhile_append_dropWhile
      (p := fun b => !decide (key a < key b)) (l := base)
    have hrest := ((ih (base.dropWhile fun b => !decide (key a < key b))).cons a).append_left
      (base.takeWhile fun b => !decide (key a < key b))
    have hfront : (base.takeWhile (fun b => !decide (key a < key b)) ++
        a :: (base.dropWhile (fun b => !decide (key a < key b)) ++ added)).Perm
          (a :: (base ++ added)) := by
      conv_rhs => rw [← hsplit, append_assoc]
      exact perm_middle
    rw [merge]
    exact hrest.trans (hfront.trans perm_middle.symm)

theorem mem_merge (base added : List α) {b : α} :
    b ∈ merge key base added ↔ b ∈ base ∨ b ∈ added := by
  rw [(merge_perm base added).mem_iff, mem_append]

@[simp]
theorem merge_nil_left (added : List α) : merge key [] added = added := by
  induction added with
  | nil => rfl
  | cons a added ih => simp [merge, ih]

variable {l : List α}

variable {κ' : Type w} {coarse : α → κ'}

/-- What a sorted list has left after its elements up to `a` is not below `a`; the
list need only be sorted by a coarser key than the one compared. -/
theorem le_of_mem_dropWhile [LinearOrder κ'] (hcoarse : ∀ a b, key a ≤ key b → coarse a ≤ coarse b)
    {a b : α} (h : Nondecreasing coarse l) (hb : b ∈ l.dropWhile fun c => !decide (key a < key c)) :
    coarse a ≤ coarse b := by
  induction l with
  | nil => cases hb
  | cons c l ih =>
    obtain ⟨hhead, htail⟩ := pairwise_cons.mp h
    rw [dropWhile_cons] at hb
    split_ifs at hb with hc
    · exact ih htail hb
    · have hac : key a < key c := by
        simpa using hc
      obtain rfl | hb := mem_cons.mp hb
      · exact hcoarse _ _ hac.le
      · exact (hcoarse _ _ hac.le).trans (hhead b hb)

variable {base added : List α}

/-- The merge of two sorted lists is sorted, also by a coarser key than the one
that decides between the lists. -/
theorem nondecreasing_merge_of_coarse [LinearOrder κ']
    (hcoarse : ∀ a b, key a ≤ key b → coarse a ≤ coarse b) (hbase : Nondecreasing coarse base)
    (hadded : Nondecreasing coarse added) : Nondecreasing coarse (merge key base added) := by
  induction added generalizing base with
  | nil => exact hbase
  | cons a added ih =>
    obtain ⟨hhead, htail⟩ := pairwise_cons.mp hadded
    have hrest := ih (hbase.sublist (dropWhile_sublist fun b => !decide (key a < key b))) htail
    have hlow : ∀ b ∈ base.takeWhile (fun b => !decide (key a < key b)), coarse b ≤ coarse a := by
      intro b hb
      apply hcoarse
      simpa using all_eq_true.mp all_takeWhile b hb
    have habove : ∀ c ∈ merge key
        (base.dropWhile fun b => !decide (key a < key b)) added, coarse a ≤ coarse c := by
      intro c hc
      obtain hc | hc := (mem_merge _ _).mp hc
      · exact le_of_mem_dropWhile hcoarse hbase hc
      · exact hhead c hc
    refine pairwise_append.mpr ⟨?_, ?_, ?_⟩
    · exact hbase.sublist (takeWhile_sublist _)
    · exact pairwise_cons.mpr ⟨habove, hrest⟩
    · intro b hb c hc
      obtain rfl | hc := mem_cons.mp hc
      · exact hlow b hb
      · exact (hlow b hb).trans (habove c hc)

theorem nondecreasing_merge (hbase : Nondecreasing key base) (hadded : Nondecreasing key added) :
    Nondecreasing key (merge key base added) :=
  nondecreasing_merge_of_coarse (fun _ _ h => h) hbase hadded

theorem increasing_of_nodup (hsorted : Nondecreasing key l) (hnodup : (l.map key).Nodup) :
    Increasing key l :=
  (hsorted.and (pairwise_map.mp hnodup)).imp fun h => lt_of_le_of_ne h.1 h.2

theorem Increasing.nondecreasing (h : Increasing key l) : Nondecreasing key l :=
  h.imp le_of_lt

theorem Increasing.nodup_map (h : Increasing key l) : (l.map key).Nodup :=
  pairwise_map.mpr (h.imp ne_of_lt)

end Merge

variable {key : α → κ}

/-- **An ordered set is determined by its elements.** -/
theorem increasing_ext {l l' : List α} (hl : Increasing key l) (hl' : Increasing key l')
    (h : ∀ a, a ∈ l ↔ a ∈ l') : l = l' := by
  exact Pairwise.eq_of_mem_iff hl hl' h

theorem insertAll_nil {l : List α} (h : Increasing key l) : insertAll key [] l = l := by
  apply increasing_ext (increasing_insertAll l Pairwise.nil) h
  intro a
  exact (insertAll_perm (l := []) h.nodup_map).mem_iff

end HotTLBApps.OrderedSet
