import Mathlib.Data.List.Perm.Basic

/-!
# Merges

A merge of lists keeps the order of each and says nothing about how they alternate (`Merge`). It is
what remains of the programs of several threads when only the order of all their calls is looked at
(`merge_of_shares`). Whatever the order, a merge holds the same values, and every list is a
subsequence of it.
-/

namespace GuardedList

variable {α : Type}

/-- All the values of some lists, those of each list in its own order. -/
inductive Merge : List (List α) → List α → Prop
  /-- There is nothing to take. -/
  | nil {lists : List (List α)} (h : ∀ list ∈ lists, list = []) : Merge lists []
  /-- The next value is the first one of any of the lists. -/
  | cons {front back : List (List α)} {value : α} {rest merged : List α}
      (h : Merge (front ++ rest :: back) merged) :
      Merge (front ++ (value :: rest) :: back) (value :: merged)

namespace Merge

variable {lists : List (List α)} {merged : List α}

theorem perm (h : Merge lists merged) : merged.Perm lists.flatten := by
  induction h with
  | nil h =>
    rw [List.flatten_eq_nil_iff.2 h]
  | @cons front back value rest merged _ ih =>
    have hcons := ih.cons value
    rw [List.flatten_append, List.flatten_cons] at hcons ⊢
    exact hcons.trans List.perm_middle.symm

theorem length_eq (h : Merge lists merged) : merged.length = lists.flatten.length :=
  h.perm.length_eq

/-- Every list keeps its order. -/
theorem sublist (h : Merge lists merged) {list : List α} (hlist : list ∈ lists) :
    list.Sublist merged := by
  induction h generalizing list with
  | nil h =>
    rw [h list hlist]
  | @cons front back value rest merged _ ih =>
    rcases List.mem_append.1 hlist with hfront | hrest
    · exact (ih (List.mem_append_left _ hfront)).cons value
    · rcases List.mem_cons.1 hrest with rfl | hback
      · exact (ih (List.mem_append_right _ List.mem_cons_self)).cons_cons value
      · exact (ih (List.mem_append_right _ (List.mem_cons_of_mem _ hback))).cons value

end Merge

/-- Two lists that differ in one place agree in all others. -/
theorem getElem?_append_cons_of_ne (front back : List α) (one other : α) {index : Nat}
    (hindex : index ≠ front.length) :
    (front ++ one :: back)[index]? = (front ++ other :: back)[index]? := by
  rcases Nat.lt_or_gt_of_ne hindex with hlt | hgt
  · rw [List.getElem?_append_left hlt, List.getElem?_append_left hlt]
  · obtain ⟨later, rfl⟩ := Nat.exists_eq_add_of_lt hgt
    rw [List.getElem?_append_right (Nat.le_of_lt hgt),
      List.getElem?_append_right (Nat.le_of_lt hgt), Nat.add_assoc, Nat.add_sub_cancel_left,
      List.getElem?_cons_succ, List.getElem?_cons_succ]

/-- Values with owners are a merge of what each owner has of them. -/
theorem merge_of_shares {entries : List (Nat × α)} {lists : List (List α)}
    (howner : ∀ entry ∈ entries, entry.1 < lists.length)
    (hshares : ∀ {index list}, lists[index]? = some list →
      (entries.filter fun entry => entry.1 = index).map Prod.snd = list) :
    Merge lists (entries.map Prod.snd) := by
  induction entries generalizing lists with
  | nil =>
    apply Merge.nil
    intro list hlist
    obtain ⟨index, hindex⟩ := List.getElem?_of_mem hlist
    exact (hshares hindex).symm
  | cons entry entries ih =>
    obtain ⟨owner, value⟩ := entry
    have hlength : owner < lists.length := howner _ List.mem_cons_self
    obtain ⟨front, list, back, rfl, rfl⟩ : ∃ front list back,
        lists = front ++ list :: back ∧ owner = front.length := by
      refine ⟨lists.take owner, lists[owner], lists.drop (owner + 1), ?_, ?_⟩
      · rw [List.getElem_cons_drop, List.take_append_drop]
      · rw [List.length_take, Nat.min_eq_left (Nat.le_of_lt hlength)]
    -- The first value is the first one of its owner's list.
    let rest := (entries.filter fun entry => entry.1 = front.length).map Prod.snd
    have hlist : value :: rest = list := by
      have hfront : (front ++ list :: back)[front.length]? = some list := by simp
      have hshare := hshares hfront
      rwa [List.filter_cons_of_pos (by simp), List.map_cons] at hshare
    subst hlist
    refine .cons (ih ?_ ?_)
    · intro entry hentry
      have hindex := howner entry (List.mem_cons_of_mem _ hentry)
      simpa using hindex
    · intro index list hlist
      by_cases hindex : index = front.length
      · subst hindex
        simpa using hlist
      · have hshare := hshares
          ((getElem?_append_cons_of_ne front back (value :: rest) rest hindex).trans hlist)
        rwa [List.filter_cons_of_neg (by simpa using Ne.symm hindex)] at hshare

end GuardedList
