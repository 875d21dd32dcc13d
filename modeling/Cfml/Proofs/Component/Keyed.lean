/-
Values by key: the last one counts.

Putting a value under a key that is there replaces the value, so the keys stay distinct. What is
there in the end is, for each key, the last of the pairs that were put (`Keyed.mem_insertAll`), and
the keys stand in the order in which they were first put (`Keyed.keys_insertAll`).
-/
import Cfml.Keyed
import Mathlib.Data.List.Induction
import Mathlib.Data.List.Nodup

set_option autoImplicit false

namespace Cfml

namespace Keyed

variable {α : Type} {key : List Char} {value : α} {entries : Keyed α} {p : List Char × α}

/-- No two entries have one key. -/
def Distinct (entries : Keyed α) : Prop := (entries.map Prod.fst).Nodup

theorem insert_cons_of_eq (value v : α) (rest : Keyed α) :
    insert key value ((key, v) :: rest) = (key, value) :: rest := by
  rw [insert, if_pos (beq_self_eq_true key)]

theorem insert_cons_of_ne {k : List Char} (h : k ≠ key) (value v : α) (rest : Keyed α) :
    insert key value ((k, v) :: rest) = (k, v) :: insert key value rest := by
  rw [insert, if_neg]
  rwa [beq_iff_eq]

theorem mem_insert (h : entries.Distinct) :
    p ∈ insert key value entries ↔ p = (key, value) ∨ (p ∈ entries ∧ p.1 ≠ key) := by
  induction entries with
  | nil => simp [insert]
  | cons e rest ih =>
    obtain ⟨k, v⟩ := e
    obtain ⟨hfirst, hrest⟩ := List.nodup_cons.mp h
    by_cases hk : k = key
    · subst hk
      rw [insert_cons_of_eq]
      -- the rest has no entry with the key
      have hother : p ∈ rest → p.1 ≠ k := by
        intro hp heq
        have hmem : p.1 ∈ rest.map Prod.fst := List.mem_map_of_mem hp
        rw [heq] at hmem
        exact hfirst hmem
      constructor
      · intro hp
        rcases List.mem_cons.mp hp with rfl | hp
        · exact Or.inl rfl
        · exact Or.inr ⟨List.mem_cons_of_mem _ hp, hother hp⟩
      · rintro (rfl | ⟨hp, hne⟩)
        · exact List.mem_cons_self
        · rcases List.mem_cons.mp hp with rfl | hp
          · exact absurd rfl hne
          · exact List.mem_cons_of_mem _ hp
    · rw [insert_cons_of_ne hk, List.mem_cons, List.mem_cons, ih hrest]
      constructor
      · rintro (rfl | rfl | ⟨hp, hne⟩)
        · exact Or.inr ⟨Or.inl rfl, hk⟩
        · exact Or.inl rfl
        · exact Or.inr ⟨Or.inr hp, hne⟩
      · rintro (rfl | ⟨rfl | hp, hne⟩)
        · exact Or.inr (Or.inl rfl)
        · exact Or.inl rfl
        · exact Or.inr (Or.inr ⟨hp, hne⟩)

theorem distinct_insert (h : entries.Distinct) (key : List Char) (value : α) :
    (insert key value entries).Distinct := by
  induction entries with
  | nil => exact List.nodup_singleton key
  | cons e rest ih =>
    obtain ⟨k, v⟩ := e
    obtain ⟨hfirst, hrest⟩ := List.nodup_cons.mp h
    by_cases hk : k = key
    · subst hk
      rw [insert_cons_of_eq]
      exact h
    · rw [insert_cons_of_ne hk]
      apply List.nodup_cons.mpr
      refine ⟨?_, ih hrest⟩
      intro hmem
      obtain ⟨p, hp, hkey⟩ := List.mem_map.mp hmem
      rcases (mem_insert hrest).mp hp with rfl | ⟨hp, -⟩
      · exact hk hkey.symm
      · exact hfirst (hkey ▸ List.mem_map_of_mem hp)

theorem insertAll_append (entries : Keyed α) (pairs : List (List Char × α)) :
    insertAll entries (pairs ++ [p]) = insert p.1 p.2 (insertAll entries pairs) := by
  rw [insertAll, insertAll, List.foldl_append]
  rfl

theorem distinct_insertAll (pairs : List (List Char × α)) : (insertAll [] pairs).Distinct := by
  induction pairs using List.reverseRecOn with
  | nil => exact List.nodup_nil
  | append_singleton pairs p ih =>
    rw [insertAll_append]
    exact distinct_insert ih p.1 p.2

/-- **Of several pairs with one key the last one is there.** -/
theorem mem_insertAll {pairs : List (List Char × α)} : p ∈ insertAll [] pairs ↔
    ∃ front back, pairs = front ++ p :: back ∧ ∀ q ∈ back, q.1 ≠ p.1 := by
  induction pairs using List.reverseRecOn with
  | nil =>
    constructor
    · intro hp
      exact absurd hp List.not_mem_nil
    · rintro ⟨front, back, heq, -⟩
      exact absurd heq (by simp)
  | append_singleton pairs q ih =>
    rw [insertAll_append, mem_insert (distinct_insertAll pairs), ih]
    constructor
    · rintro (rfl | ⟨⟨front, back, rfl, hback⟩, hne⟩)
      · exact ⟨pairs, [], rfl, by simp⟩
      · refine ⟨front, back ++ [q], by simp, ?_⟩
        intro q' hq'
        rcases List.mem_append.mp hq' with hq' | hq'
        · exact hback q' hq'
        · obtain rfl := List.mem_singleton.mp hq'
          exact hne.symm
    · rintro ⟨front, back, heq, hback⟩
      -- the last pair is this one, or it stands behind it
      rcases List.eq_nil_or_concat' back with rfl | ⟨back, last, rfl⟩
      · obtain ⟨-, hlast⟩ := List.append_inj' heq rfl
        obtain rfl := List.singleton_inj.mp hlast
        exact Or.inl rfl
      · have hsplit : pairs ++ [q] = (front ++ p :: back) ++ [last] := by
          rw [heq]
          simp
        obtain ⟨rfl, hlast⟩ := List.append_inj' hsplit rfl
        obtain rfl := List.singleton_inj.mp hlast
        refine Or.inr ⟨⟨front, back, rfl, ?_⟩, ?_⟩
        · intro q' hq'
          exact hback q' (List.mem_append_left _ hq')
        · exact (hback q (by simp)).symm

/-- In a list in order, the last one with a key comes behind all others with the key. -/
theorem rel_of_split {β : Type} {R : β → β → Prop} {keyOf : β → List Char} {front back : List β}
    {b : β} (hsorted : (front ++ b :: back).Pairwise R) (hrefl : R b b)
    (hback : ∀ x ∈ back, keyOf x ≠ keyOf b) :
    ∀ x ∈ front ++ b :: back, keyOf x = keyOf b → R x b := by
  intro x hx hkey
  rcases List.mem_append.mp hx with hx | hx
  · exact (List.pairwise_append.mp hsorted).2.2 x hx b List.mem_cons_self
  · rcases List.mem_cons.mp hx with rfl | hx
    · exact hrefl
    · exact absurd hkey (hback x hx)

/-- What is there was put. -/
theorem mem_of_mem_insertAll {pairs : List (List Char × α)} (h : p ∈ insertAll [] pairs) :
    p ∈ pairs := by
  obtain ⟨front, back, rfl, -⟩ := mem_insertAll.mp h
  exact List.mem_append_right front List.mem_cons_self

/-- Every key that was put is there. -/
theorem exists_mem_insertAll {pairs : List (List Char × α)} (h : p ∈ pairs) :
    ∃ value, (p.1, value) ∈ insertAll [] pairs := by
  induction pairs using List.reverseRecOn with
  | nil => exact absurd h List.not_mem_nil
  | append_singleton pairs q ih =>
    rw [insertAll_append]
    by_cases hkey : p.1 = q.1
    · refine ⟨q.2, (mem_insert (distinct_insertAll pairs)).mpr (Or.inl ?_)⟩
      rw [hkey]
    · have hp : p ∈ pairs := by
        rcases List.mem_append.mp h with hp | hp
        · exact hp
        · obtain rfl := List.mem_singleton.mp hp
          exact absurd rfl hkey
      obtain ⟨value, hvalue⟩ := ih hp
      exact ⟨value, (mem_insert (distinct_insertAll pairs)).mpr (Or.inr ⟨hvalue, hkey⟩)⟩

/-- A key that is not there is put behind all others. -/
theorem insert_of_notMem (h : key ∉ entries.map Prod.fst) (value : α) :
    insert key value entries = entries ++ [(key, value)] := by
  induction entries with
  | nil => rfl
  | cons e rest ih =>
    rw [List.map_cons, List.mem_cons, not_or] at h
    rw [insert_cons_of_ne (Ne.symm h.1), ih h.2]
    rfl

/-- Pairs whose keys are distinct are put one behind the other. -/
theorem insertAll_of_distinct {pairs : List (List Char × α)} (h : Distinct pairs) :
    insertAll [] pairs = pairs := by
  induction pairs using List.reverseRecOn with
  | nil => rfl
  | append_singleton pairs q ih =>
    rw [Distinct, List.map_append, List.nodup_append] at h
    obtain ⟨hpairs, -, hlast⟩ := h
    rw [insertAll_append, ih hpairs, insert_of_notMem]
    intro hmem
    exact hlast q.1 hmem q.1 (by simp) rfl

/-- A key that is there keeps its place, and any other one is put behind all others. -/
theorem keys_insert (key : List Char) (value : α) (entries : Keyed α) :
    (insert key value entries).map Prod.fst = if key ∈ entries.map Prod.fst then
      entries.map Prod.fst else entries.map Prod.fst ++ [key] := by
  by_cases h : key ∈ entries.map Prod.fst
  · rw [if_pos h]
    induction entries with
    | nil => exact absurd h List.not_mem_nil
    | cons e rest ih =>
      obtain ⟨k, v⟩ := e
      by_cases hk : k = key
      · subst hk
        rw [insert_cons_of_eq]
        rfl
      · rw [insert_cons_of_ne hk, List.map_cons,
          ih ((List.mem_cons.mp h).resolve_left (Ne.symm hk)), List.map_cons]
  · rw [if_neg h, insert_of_notMem h, List.map_append]
    rfl

/-- **The keys are those that were put, in the order in which they first occur.** -/
theorem keys_insertAll (pairs : List (List Char × α)) :
    (insertAll [] pairs).map Prod.fst = (pairs.map Prod.fst).eraseDups := by
  induction pairs using List.reverseRecOn with
  | nil => rfl
  | append_singleton pairs p ih =>
    rw [insertAll_append, keys_insert, ih, List.map_append, List.map_singleton,
      List.eraseDups_append]
    by_cases h : p.1 ∈ (pairs.map Prod.fst).eraseDups
    · rw [if_pos h]
      simp [List.removeAll, List.mem_eraseDups.mp h]
    · rw [if_neg h]
      simp [List.removeAll, List.eraseDups_cons, mt List.mem_eraseDups.mpr h]

/-- **Of two keys the first one was put before the second one ever was.** -/
theorem pairwise_keys_insertAll (pairs : List (List Char × α)) :
    ((insertAll [] pairs).map Prod.fst).Pairwise fun k k' =>
      ∃ front q back, pairs = front ++ q :: back ∧ q.1 = k ∧ ∀ p ∈ front, p.1 ≠ k' := by
  induction pairs using List.reverseRecOn with
  | nil => exact List.Pairwise.nil
  | append_singleton pairs p ih =>
    have hearlier : ((insertAll [] pairs).map Prod.fst).Pairwise fun k k' =>
        ∃ front q back, pairs ++ [p] = front ++ q :: back ∧ q.1 = k ∧ ∀ p ∈ front, p.1 ≠ k' := by
      apply ih.imp
      rintro k k' ⟨front, q, back, rfl, hkey, hfront⟩
      exact ⟨front, q, back ++ [p], by simp, hkey, hfront⟩
    rw [insertAll_append, keys_insert]
    split
    · exact hearlier
    · next hnew =>
      refine List.pairwise_append.mpr ⟨hearlier, List.pairwise_singleton _ _, ?_⟩
      intro k hk k' hk'
      obtain rfl := List.mem_singleton.mp hk'
      obtain ⟨e, he, rfl⟩ := List.mem_map.mp hk
      obtain ⟨front, back, rfl⟩ := List.append_of_mem (mem_of_mem_insertAll he)
      refine ⟨front, e, back ++ [p], by simp, rfl, ?_⟩
      intro q hq heq
      -- the key of all that was put is there
      obtain ⟨value, hvalue⟩ := exists_mem_insertAll (List.mem_append_left (e :: back) hq)
      rw [heq] at hvalue
      exact hnew (List.mem_map.mpr ⟨_, hvalue, rfl⟩)

/-- The entry under a key is found there. -/
theorem find?_of_mem (h : entries.Distinct) (hp : p ∈ entries) : find? p.1 entries = some p.2 := by
  induction entries with
  | nil => exact absurd hp List.not_mem_nil
  | cons e rest ih =>
    obtain ⟨hfirst, hrest⟩ := List.nodup_cons.mp h
    rw [find?, List.lookup_cons]
    rcases List.mem_cons.mp hp with rfl | hp
    · rw [beq_self_eq_true]
    · have hne : p.1 ≠ e.1 := by
        intro heq
        exact hfirst (heq ▸ List.mem_map_of_mem hp)
      rw [beq_eq_false_iff_ne.mpr hne]
      exact ih hrest hp

theorem mem_of_find? (h : find? key entries = some value) : (key, value) ∈ entries := by
  induction entries with
  | nil => exact absurd h (by simp [find?])
  | cons e rest ih =>
    obtain ⟨k, v⟩ := e
    rw [find?, List.lookup_cons] at h
    cases hkey : key == k with
    | true =>
      rw [hkey] at h
      obtain rfl := Option.some.inj h
      rw [beq_iff_eq.mp hkey]
      exact List.mem_cons_self
    | false =>
      rw [hkey] at h
      exact List.mem_cons_of_mem _ (ih h)

theorem find?_map {β : Type} (f : α → β) (key : List Char) (entries : Keyed α) :
    find? key (entries.map fun e => (e.1, f e.2)) = (find? key entries).map f := by
  induction entries with
  | nil => rfl
  | cons e rest ih =>
    obtain ⟨k, v⟩ := e
    rw [find?, find?, List.map_cons, List.lookup_cons, List.lookup_cons]
    cases key == k with
    | true => rfl
    | false => exact ih

end Keyed

end Cfml
