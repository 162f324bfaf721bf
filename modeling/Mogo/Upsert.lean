import Mathlib.Data.Set.Function
import Mogo.KeyedList

/-!
# Upserts Through an Index

A client writes items into a table of records. It keeps an index from keys to identities: an item
whose key has an entry overwrites the record of that entry, any other item becomes a new record
and enters the index. The identities of new records come from a counter, and the write of an item
may fail, which is what the flag `ok` says.

The index the client starts from need not be the index of the whole table. What is asked of it
(`UpsertState.Sound`) is only that its entries are right.

## Main results

* `Upsert.upsertAll_pairs`: which keys the table gains, and that no old record changes its key.
* `Upsert.upsertAll_fresh`: items with new and distinct keys become one record each.
* `Upsert.upsertAll_known`: items whose keys are known overwrite, and the last one wins.
* `Upsert.upsertAll_settled`: afterwards the last item of a key has nothing left to write.
* `Upsert.upsertAll_index`: a complete index stays complete.
* `Upsert.upsertAll_untouched`: the records no item leads to stay as they are.
* `Upsert.Renamed.upsertAll`: identities are tokens.
-/

namespace Mogo

variable {ρ κ α : Type}

/-- How items become records: `edit` overwrites a record and `make` builds a new one under an
identity. Both leave the record under the key of the item, and nothing of an earlier item
survives a later one. -/
structure Upsert (ρ κ α : Type) where
  key : ρ → Option κ
  ident : ρ → ℕ
  itemKey : α → κ
  edit : α → ρ → ρ
  make : α → ℕ → ρ
  ident_edit : ∀ a r, ident (edit a r) = ident r
  key_edit : ∀ a r, key (edit a r) = some (itemKey a)
  ident_make : ∀ a n, ident (make a n) = n
  key_make : ∀ a n, key (make a n) = some (itemKey a)
  edit_edit : ∀ a b r, edit a (edit b r) = edit a r
  edit_make : ∀ a b n, edit a (make b n) = make a n

/-- The table, the index of the client, and the counter of identities. -/
structure UpsertState (ρ κ : Type) where
  table : List ρ
  index : κ → Option ℕ
  next : ℕ

namespace Upsert

variable (u : Upsert ρ κ α)

/-- What the index sees of a record. -/
def pair (r : ρ) : ℕ × Option κ := (u.ident r, u.key r)

/-- The identities are distinct and behind the counter, and every entry of the index is the
identity of a record with that key. -/
structure Sound (s : UpsertState ρ κ) : Prop where
  ids_nodup : (s.table.map u.ident).Nodup
  ids_lt : ∀ r ∈ s.table, u.ident r < s.next
  entry : ∀ k i, s.index k = some i → ∃ r ∈ s.table, u.ident r = i ∧ u.key r = some k

section Sound

variable {u} {s : UpsertState ρ κ} {a : α}

/-- The record that an entry of the index points to has the key of the entry. -/
theorem Sound.key_of_ident (hs : u.Sound s) {k : κ} {i : ℕ} (hi : s.index k = some i) {r : ρ}
    (hr : r ∈ s.table) (he : u.ident r = i) : u.key r = some k := by
  obtain ⟨r', hr', he', hk'⟩ := hs.entry k i hi
  rwa [eq_of_ident_eq hs.ids_nodup hr hr' (he.trans he'.symm)]

/-- Overwriting the record of an entry changes no identity and no key. -/
theorem Sound.map_pair_modifyAt (hs : u.Sound s) {i : ℕ}
    (hi : s.index (u.itemKey a) = some i) :
    (modifyAt u.ident i (u.edit a) s.table).map u.pair = s.table.map u.pair := by
  refine map_modifyAt fun r hr he => ?_
  rw [pair, pair, u.ident_edit, u.key_edit, hs.key_of_ident hi hr he]

/-- A state whose index sees the same pairs is as sound. -/
theorem Sound.of_map_pair (hs : u.Sound s) {s' : UpsertState ρ κ}
    (hpair : s'.table.map u.pair = s.table.map u.pair) (hindex : s'.index = s.index)
    (hnext : s'.next = s.next) : u.Sound s' := by
  have hids : s'.table.map u.ident = s.table.map u.ident := by
    have hfst := congrArg (List.map Prod.fst) hpair
    rwa [List.map_map, List.map_map] at hfst
  have hmem : ∀ r ∈ s'.table, ∃ r' ∈ s.table, u.pair r' = u.pair r := fun r hr =>
    List.mem_map.mp (hpair ▸ List.mem_map_of_mem hr)
  constructor
  · rw [hids]
    exact hs.ids_nodup
  · intro r hr
    obtain ⟨r', hr', he⟩ := hmem r hr
    have hid : u.ident r' = u.ident r := congrArg Prod.fst he
    rw [hnext, ← hid]
    exact hs.ids_lt r' hr'
  · intro k i hi
    obtain ⟨r, hr, he, hk⟩ := hs.entry k i (hindex ▸ hi)
    obtain ⟨r', hr', hp⟩ := List.mem_map.mp (hpair ▸ List.mem_map_of_mem (f := u.pair) hr)
    exact ⟨r', hr', (congrArg Prod.fst hp).trans he, (congrArg Prod.snd hp).trans hk⟩

end Sound

variable [DecidableEq κ] (ok : α → Bool)

/-- Write one item: the record of its key is edited if the index has one, and made otherwise. -/
def upsert (a : α) (s : UpsertState ρ κ) : UpsertState ρ κ :=
  if ok a then
    match s.index (u.itemKey a) with
    | some i => { s with table := modifyAt u.ident i (u.edit a) s.table }
    | none =>
      { table := s.table ++ [u.make a s.next]
        index := Function.update s.index (u.itemKey a) (some s.next)
        next := s.next + 1 }
  else s

/-- Write a list of items, in order. -/
def upsertAll (l : List α) (s : UpsertState ρ κ) : UpsertState ρ κ :=
  l.foldl (fun s a => u.upsert ok a s) s

/-- The last item of a key, which is the one that stays. -/
def lastWith (k : κ) (l : List α) : Option α := l.reverse.find? fun a => u.itemKey a = k

section Step

variable {u ok} {s : UpsertState ρ κ} {a : α}

/-- A row whose call has failed changes nothing. -/
theorem upsert_of_not_ok (h : ok a = false) : u.upsert ok a s = s := by
  rw [upsert, h, if_neg Bool.false_ne_true]

/-- A row whose key is indexed is edited in its place. -/
theorem upsert_of_some (h : ok a = true) {i : ℕ} (hi : s.index (u.itemKey a) = some i) :
    u.upsert ok a s = { s with table := modifyAt u.ident i (u.edit a) s.table } := by
  rw [upsert, if_pos h, hi]

/-- A row whose key is not indexed is appended. -/
theorem upsert_of_none (h : ok a = true) (hn : s.index (u.itemKey a) = none) :
    u.upsert ok a s =
      { table := s.table ++ [u.make a s.next]
        index := Function.update s.index (u.itemKey a) (some s.next)
        next := s.next + 1 } := by
  rw [upsert, if_pos h, hn]

/-- Writing an item keeps the state sound. -/
theorem Sound.upsert (hs : u.Sound s) : u.Sound (u.upsert ok a s) := by
  rcases hok : ok a with - | -
  · rwa [upsert_of_not_ok hok]
  rcases hi : s.index (u.itemKey a) with - | i
  · rw [upsert_of_none hok hi]
    constructor
    · rw [List.map_append, List.nodup_append]
      refine ⟨hs.ids_nodup, List.nodup_singleton _, fun i hi j hj => ?_⟩
      obtain ⟨r, hr, rfl⟩ := List.mem_map.mp hi
      obtain rfl := List.mem_singleton.mp hj
      rw [u.ident_make]
      exact Nat.ne_of_lt (hs.ids_lt r hr)
    · intro r hr
      rcases List.mem_append.mp hr with hr | hr
      · exact Nat.lt_succ_of_lt (hs.ids_lt r hr)
      · obtain rfl := List.mem_singleton.mp hr
        rw [u.ident_make]
        exact Nat.lt_succ_self s.next
    · intro k i hk
      dsimp only at hk
      by_cases hka : k = u.itemKey a
      · rw [hka, Function.update_self] at hk
        refine ⟨_, List.mem_append_right _ List.mem_cons_self, ?_, ?_⟩
        · rw [u.ident_make, Option.some.inj hk]
        · rw [u.key_make, hka]
      · rw [Function.update_of_ne hka] at hk
        obtain ⟨r, hr, h⟩ := hs.entry k i hk
        exact ⟨r, List.mem_append_left _ hr, h⟩
  · rw [upsert_of_some hok hi]
    exact hs.of_map_pair (hs.map_pair_modifyAt hi) rfl rfl

end Step

section Run

variable {u ok} {s : UpsertState ρ κ}

/-- Rows are worked through one after the other. -/
theorem upsertAll_cons (a : α) (l : List α) :
    u.upsertAll ok (a :: l) s = u.upsertAll ok l (u.upsert ok a s) := rfl

/-- Rows are worked through one part after the other. -/
theorem upsertAll_append (l₁ l₂ : List α) :
    u.upsertAll ok (l₁ ++ l₂) s = u.upsertAll ok l₂ (u.upsertAll ok l₁ s) := List.foldl_append

/-- The last row is worked through last. -/
theorem upsertAll_concat (l : List α) (a : α) :
    u.upsertAll ok (l ++ [a]) s = u.upsert ok a (u.upsertAll ok l s) := upsertAll_append l [a]

/-- Any number of rows keep the index sound. -/
theorem Sound.upsertAll (hs : u.Sound s) (l : List α) : u.Sound (u.upsertAll ok l s) := by
  induction l generalizing s with
  | nil => exact hs
  | cons a l ih => exact ih hs.upsert

variable (ok) in
/-- **The keys of the table.** No old record changes its key; every new record has a key of its
own, and these are the keys without an entry that some written item carries. -/
theorem upsertAll_pairs (hs : u.Sound s) (l : List α) :
    ∃ made : List (ℕ × κ),
      (u.upsertAll ok l s).table.map u.pair =
        s.table.map u.pair ++ made.map (fun x => (x.1, some x.2)) ∧
      (made.map Prod.snd).Nodup ∧
      ∀ k, k ∈ made.map Prod.snd ↔
        s.index k = none ∧ ∃ a ∈ l, u.itemKey a = k ∧ ok a = true := by
  induction l generalizing s with
  | nil => exact ⟨[], by simp [upsertAll], by simp, by simp⟩
  | cons a l ih =>
      obtain ⟨made, hpairs, hnodup, hmade⟩ := ih hs.upsert
      rw [upsertAll_cons]
      rcases hok : ok a with - | -
      · rw [upsert_of_not_ok hok] at hpairs hmade ⊢
        refine ⟨made, hpairs, hnodup, fun k => ?_⟩
        rw [hmade k]
        refine and_congr_right fun _ => ⟨fun ⟨b, hb, h⟩ => ⟨b, List.mem_cons_of_mem a hb, h⟩, ?_⟩
        rintro ⟨b, hb, h⟩
        rcases List.mem_cons.mp hb with rfl | hb
        · exact absurd h.2 (by rw [hok]; exact Bool.false_ne_true)
        · exact ⟨b, hb, h⟩
      · rcases hi : s.index (u.itemKey a) with - | i
        · rw [upsert_of_none hok hi] at hpairs hmade ⊢
          refine ⟨(s.next, u.itemKey a) :: made, ?_, ?_, fun k => ?_⟩
          · rw [hpairs, List.map_append, List.append_assoc]
            simp only [List.map_cons, List.map_nil, List.singleton_append, pair, u.ident_make,
              u.key_make]
          · refine List.nodup_cons.mpr ⟨fun hmem => ?_, hnodup⟩
            have hnone := ((hmade _).mp hmem).1
            simp only [Function.update_self] at hnone
            exact absurd hnone (by simp)
          · rw [List.map_cons, List.mem_cons, hmade k]
            by_cases hka : k = u.itemKey a
            · subst hka
              exact ⟨fun _ => ⟨hi, a, List.mem_cons_self, rfl, hok⟩, fun _ => Or.inl rfl⟩
            · simp only [hka, false_or, Function.update_of_ne hka, List.mem_cons,
                exists_eq_or_imp, Ne.symm hka, false_and]
        · rw [upsert_of_some hok hi] at hpairs hmade ⊢
          refine ⟨made, hpairs.trans (by rw [hs.map_pair_modifyAt hi]), hnodup, fun k => ?_⟩
          rw [hmade k]
          refine and_congr_right fun hk => ⟨fun ⟨b, hb, h⟩ => ⟨b, List.mem_cons_of_mem a hb, h⟩, ?_⟩
          rintro ⟨b, hb, h⟩
          rcases List.mem_cons.mp hb with rfl | hb
          · exact absurd (h.1 ▸ hk) (by rw [hi]; simp)
          · exact ⟨b, hb, h⟩

/-- An index that lists all keyed records does so after every run of upserts. -/
theorem upsertAll_index (hs : u.Sound s) (hindex : s.index = indexOf u.key u.ident s.table)
    (l : List α) :
    (u.upsertAll ok l s).index = indexOf u.key u.ident (u.upsertAll ok l s).table := by
  induction l generalizing s with
  | nil => exact hindex
  | cons a l ih =>
      refine ih hs.upsert ?_
      dsimp only
      rcases hok : ok a with - | -
      · rwa [upsert_of_not_ok hok]
      · rcases hi : s.index (u.itemKey a) with - | i
        · rw [upsert_of_none hok hi, indexOf_append_singleton (u.key_make a s.next),
            u.ident_make, hindex]
        · rw [upsert_of_some hok hi]
          exact hindex.trans (indexInto_congr (hs.map_pair_modifyAt hi).symm _)

/-- An entry of the index is never changed by a later item. -/
theorem upsert_index_eq_some {k : κ} {i : ℕ} (h : s.index k = some i) (a : α) :
    (u.upsert ok a s).index k = some i := by
  cases hok : ok a with
  | false => rwa [upsert_of_not_ok hok]
  | true =>
      cases hi : s.index (u.itemKey a) with
      | some j => rwa [upsert_of_some hok hi]
      | none =>
          rw [upsert_of_none hok hi]
          dsimp only
          rw [Function.update_of_ne, h]
          rintro rfl
          exact absurd (h.symm.trans hi) (by simp)

/-- A key that is indexed stays indexed at the same place. -/
theorem upsertAll_index_eq_some {k : κ} {i : ℕ} (h : s.index k = some i) (l : List α) :
    (u.upsertAll ok l s).index k = some i := by
  induction l generalizing s with
  | nil => exact h
  | cons a l ih => exact ih (upsert_index_eq_some h a)

/-! ### Items that are all written -/

/-- The keys of items that have been written are known. -/
theorem upsertAll_knows {l : List α} (hok : ∀ a ∈ l, ok a = true) {a : α} (ha : a ∈ l) :
    ((u.upsertAll ok l s).index (u.itemKey a)).isSome = true := by
  induction l generalizing s with
  | nil => exact absurd ha List.not_mem_nil
  | cons b l ih =>
      cases ha with
      | tail _ ha => exact ih (fun c hc => hok c (List.mem_cons_of_mem b hc)) ha
      | head =>
          rw [upsertAll_cons]
          refine Option.isSome_iff_exists.mpr ?_
          cases hi : s.index (u.itemKey a) with
          | some i =>
              rw [upsert_of_some (hok a List.mem_cons_self) hi]
              exact ⟨i, upsertAll_index_eq_some (by exact hi) l⟩
          | none =>
              rw [upsert_of_none (hok a List.mem_cons_self) hi]
              exact ⟨s.next, upsertAll_index_eq_some (by exact Function.update_self ..) l⟩

/-- Items with new and distinct keys become one record each, in order. -/
theorem upsertAll_fresh {l : List α} (hnodup : (l.map u.itemKey).Nodup)
    (hnew : ∀ a ∈ l, s.index (u.itemKey a) = none) (hok : ∀ a ∈ l, ok a = true) :
    (u.upsertAll ok l s).table =
      s.table ++ (l.zipIdx s.next).map fun x => u.make x.1 x.2 := by
  induction l generalizing s with
  | nil => simp [upsertAll]
  | cons a l ih =>
      obtain ⟨hnotin, hnodup⟩ := List.nodup_cons.mp hnodup
      have hstep := upsert_of_none (hok a List.mem_cons_self) (hnew a List.mem_cons_self)
      rw [upsertAll_cons, ih hnodup ?_ fun b hb => hok b (List.mem_cons_of_mem a hb), hstep,
        List.append_assoc]
      · rfl
      · intro b hb
        have hne : u.itemKey b ≠ u.itemKey a := fun he => hnotin (he ▸ List.mem_map_of_mem hb)
        rw [hstep]
        exact (Function.update_of_ne hne ..).trans (hnew b (List.mem_cons_of_mem a hb))

/-- The last row with a key is the one at the end, if it has the key. -/
theorem lastWith_concat (k : κ) (l : List α) (a : α) :
    u.lastWith k (l ++ [a]) = if u.itemKey a = k then some a else u.lastWith k l := by
  rw [lastWith, List.reverse_concat, List.find?_cons]
  by_cases h : u.itemKey a = k <;> simp [h, lastWith]

/-- The last row with a key is one of the others, or else the first. -/
theorem lastWith_cons (k : κ) (a : α) (l : List α) :
    u.lastWith k (a :: l) = (u.lastWith k l).or (if u.itemKey a = k then some a else none) := by
  rw [lastWith, List.reverse_cons, List.find?_append, lastWith, List.find?_singleton]
  by_cases h : u.itemKey a = k <;> simp [h]

/-- The item of a list that has the last word on a record: the last one of its key, if the index
has the record for that key. -/
def written (index : κ → Option ℕ) (l : List α) (r : ρ) : Option α :=
  (u.key r).bind fun k => if index k = some (u.ident r) then u.lastWith k l else none

/-- Overwrite a record with the item that has the last word on it. -/
def rewrite (index : κ → Option ℕ) (l : List α) (r : ρ) : ρ :=
  match u.written index l r with
  | some a => u.edit a r
  | none => r

/-- The item that has the last word on a record carries its key. -/
theorem written_eq_some {index : κ → Option ℕ} {l : List α} {r : ρ} {a : α}
    (h : u.written index l r = some a) :
    ∃ k, u.key r = some k ∧ index k = some (u.ident r) ∧ u.lastWith k l = some a ∧
      u.itemKey a = k := by
  obtain ⟨k, hk, h⟩ := Option.bind_eq_some_iff.mp h
  split at h
  next hi =>
    have hlast := List.find?_some h
    exact ⟨k, hk, hi, h, by simpa using hlast⟩
  · exact absurd h (by simp)

/-- Overwriting changes no identity and no key. -/
theorem pair_rewrite (index : κ → Option ℕ) (l : List α) (r : ρ) :
    u.pair (u.rewrite index l r) = u.pair r := by
  rw [rewrite]
  cases hw : u.written index l r with
  | none => rfl
  | some a =>
      obtain ⟨k, hk, -, -, rfl⟩ := written_eq_some hw
      rw [pair, pair, u.ident_edit, u.key_edit, hk]

/-- A record that the index has for its key is written by the last item with this key. -/
theorem written_of_eq {index : κ → Option ℕ} {l : List α} {r : ρ} {k : κ}
    (hk : u.key r = some k) (hi : index k = some (u.ident r)) :
    u.written index l r = u.lastWith k l := by
  rw [written, hk, Option.bind_some, if_pos hi]

/-- **Items whose keys are known** overwrite, and the last one of a key wins. -/
theorem upsertAll_known (hs : u.Sound s) {l : List α} (hok : ∀ a ∈ l, ok a = true)
    (hknown : ∀ a ∈ l, (s.index (u.itemKey a)).isSome = true) :
    u.upsertAll ok l s = { s with table := s.table.map (u.rewrite s.index l) } := by
  induction l generalizing s with
  | nil =>
      have hid : ∀ r, u.rewrite s.index [] r = r := by
        intro r
        rw [rewrite, written]
        rcases u.key r with - | k
        · rfl
        · simp [lastWith]
      rw [List.map_congr_left fun r _ => hid r, List.map_id']
      rfl
  | cons a l ih =>
      obtain ⟨i, hi⟩ := Option.isSome_iff_exists.mp (hknown a List.mem_cons_self)
      have hstep := upsert_of_some (hok a List.mem_cons_self) hi
      rw [upsertAll_cons, ih hs.upsert (fun b hb => hok b (List.mem_cons_of_mem a hb)) ?_, hstep]
      · simp only [modifyAt, List.map_map]
        congr 1
        refine List.map_congr_left fun r hr => ?_
        rw [Function.comp]
        by_cases he : u.ident r = i
        · have hk := hs.key_of_ident hi hr he
          have hi' : s.index (u.itemKey a) = some (u.ident (u.edit a r)) := by
            rw [u.ident_edit, he, hi]
          rw [if_pos he, rewrite, rewrite, written_of_eq (u.key_edit a r) hi',
            written_of_eq hk (he ▸ hi), lastWith_cons, if_pos rfl]
          rcases u.lastWith (u.itemKey a) l with - | b
          · rfl
          · exact u.edit_edit b a r
        · rw [if_neg he, rewrite, rewrite]
          congr 1
          rw [written, written]
          rcases hk : u.key r with - | k
          · rfl
          · rw [Option.bind_some, Option.bind_some]
            by_cases hik : s.index k = some (u.ident r)
            · have hne : u.itemKey a ≠ k := by
                rintro rfl
                exact he (Option.some.inj (hik.symm.trans hi))
              rw [if_pos hik, if_pos hik, lastWith_cons, if_neg hne, Option.or_none]
            · rw [if_neg hik, if_neg hik]
      · intro b hb
        rw [hstep]
        exact hknown b (List.mem_cons_of_mem a hb)

/-- **The items have settled.** Afterwards the last item of a key has nothing left to write to
the record the index has for that key. -/
theorem upsertAll_settled (hs : u.Sound s) {l : List α} (hok : ∀ a ∈ l, ok a = true)
    {r : ρ} (hr : r ∈ (u.upsertAll ok l s).table) {k : κ} (hk : u.key r = some k)
    (hi : (u.upsertAll ok l s).index k = some (u.ident r)) {a : α}
    (ha : u.lastWith k l = some a) : u.edit a r = r := by
  induction l using List.reverseRecOn generalizing r k a with
  | nil => exact absurd ha (by simp [lastWith])
  | append_singleton l b ih =>
      have hokl : ∀ a ∈ l, ok a = true := fun a ha => hok a (List.mem_append_left _ ha)
      have hokb : ok b = true := hok b (List.mem_append_right _ List.mem_cons_self)
      have hsound : u.Sound (u.upsertAll ok l s) := hs.upsertAll l
      rw [upsertAll_concat] at hr hi
      rw [lastWith_concat] at ha
      rcases hib : (u.upsertAll ok l s).index (u.itemKey b) with - | i
      · rw [upsert_of_none hokb hib] at hr hi
        rcases List.mem_append.mp hr with hr | hr
        · by_cases hkb : k = u.itemKey b
          · simp only [hkb, Function.update_self] at hi
            have hlt := hsound.ids_lt r hr
            rw [← Option.some.inj hi] at hlt
            exact absurd hlt (Nat.lt_irrefl _)
          · rw [if_neg (Ne.symm hkb)] at ha
            exact ih hokl hr hk ((Function.update_of_ne hkb ..).symm.trans hi) ha
        · obtain rfl := List.mem_singleton.mp hr
          rw [u.key_make] at hk
          rw [if_pos (Option.some.inj hk)] at ha
          rw [← Option.some.inj ha, u.edit_make]
      · rw [upsert_of_some hokb hib] at hr hi
        rcases mem_modifyAt.mp hr with ⟨hr, hne⟩ | ⟨r₀, -, -, rfl⟩
        · have hkb : u.itemKey b ≠ k := by
            rintro rfl
            exact hne (Option.some.inj (hi.symm.trans hib))
          rw [if_neg hkb] at ha
          exact ih hokl hr hk hi ha
        · rw [u.key_edit] at hk
          rw [if_pos (Option.some.inj hk)] at ha
          rw [← Option.some.inj ha, u.edit_edit]

/-- **What is left alone.** A record that no known key of an item leads to stays as it is. -/
theorem upsertAll_untouched (hs : u.Sound s) {l : List α} {r : ρ} (hr : r ∈ s.table)
    (hnone : ∀ a ∈ l, s.index (u.itemKey a) ≠ some (u.ident r)) :
    r ∈ (u.upsertAll ok l s).table := by
  induction l generalizing s with
  | nil => exact hr
  | cons a l ih =>
      have ha := hnone a List.mem_cons_self
      have hl := fun b hb => hnone b (List.mem_cons_of_mem a hb)
      have hs' : u.Sound (u.upsert ok a s) := hs.upsert
      rw [upsertAll_cons]
      cases hok : ok a with
      | false =>
          rw [upsert_of_not_ok hok]
          exact ih hs hr hl
      | true =>
          cases hi : s.index (u.itemKey a) with
          | some i =>
              rw [upsert_of_some hok hi] at hs' ⊢
              refine ih hs' (mem_modifyAt.mpr (Or.inl ⟨hr, ?_⟩)) hl
              rintro rfl
              exact ha hi
          | none =>
              rw [upsert_of_none hok hi] at hs' ⊢
              refine ih hs' (List.mem_append_left _ hr) fun b hb he => ?_
              dsimp only at he
              by_cases hkey : u.itemKey b = u.itemKey a
              · rw [hkey, Function.update_self] at he
                exact absurd (Option.some.inj he) (hs.ids_lt r hr).ne'
              · rw [Function.update_of_ne hkey] at he
                exact hl b hb he

/-! ### Renamed identities -/

section Renamed

variable (u) {σ : ℕ → ℕ} {ren : ρ → ρ} {s' : UpsertState ρ κ}

/-- The state `s'` is `s` under other identities, those to come included. -/
structure Renamed (σ : ℕ → ℕ) (ren : ρ → ρ) (s s' : UpsertState ρ κ) : Prop where
  table : s'.table = s.table.map ren
  index : ∀ k, s'.index k = (s.index k).map σ
  next : ∀ i, σ (s.next + i) = s'.next + i
  known : ∀ k i, s.index k = some i → i ∈ s.table.map u.ident
  inj : Set.InjOn σ {i | i ∈ s.table.map u.ident ∨ s.next ≤ i}

variable {u} (hident : ∀ r, u.ident (ren r) = σ (u.ident r))
  (hedit : ∀ a r, u.edit a (ren r) = ren (u.edit a r))
  (hmake : ∀ a n, ren (u.make a n) = u.make a (σ n))
include hident hedit hmake

/-- A row commutes with a renaming of the records. -/
theorem Renamed.upsert (h : u.Renamed σ ren s s') (a : α) :
    u.Renamed σ ren (u.upsert ok a s) (u.upsert ok a s') := by
  cases hok : ok a with
  | false => rwa [upsert_of_not_ok hok, upsert_of_not_ok hok]
  | true =>
      cases hi : s.index (u.itemKey a) with
      | some i =>
          have hi' : s'.index (u.itemKey a) = some (σ i) := by rw [h.index, hi]; rfl
          have hids : (modifyAt u.ident i (u.edit a) s.table).map u.ident =
              s.table.map u.ident := map_modifyAt fun r _ _ => u.ident_edit a r
          rw [upsert_of_some hok hi, upsert_of_some hok hi']
          refine ⟨?_, h.index, h.next, fun k j hj => ?_, ?_⟩
          · dsimp only
            rw [h.table]
            refine modifyAt_map hident (hedit a) fun r hr he => ?_
            exact h.inj (Or.inl (List.mem_map_of_mem hr)) (Or.inl (h.known _ _ hi)) he
          · rw [hids]
            exact h.known k j hj
          · rw [hids]
            exact h.inj
      | none =>
          have hi' : s'.index (u.itemKey a) = none := by rw [h.index, hi]; rfl
          have hnext : σ s.next = s'.next := h.next 0
          rw [upsert_of_none hok hi, upsert_of_none hok hi']
          refine ⟨?_, fun k => ?_, fun i => ?_, fun k j hj => ?_, h.inj.mono fun i hi => ?_⟩
          · dsimp only
            rw [List.map_append, List.map_singleton, hmake, hnext, h.table]
          · dsimp only
            by_cases hk : k = u.itemKey a
            · rw [hk, Function.update_self, Function.update_self, ← hnext]
              rfl
            · rw [Function.update_of_ne hk, Function.update_of_ne hk, h.index]
          · dsimp only
            rw [Nat.add_assoc, Nat.add_assoc, h.next]
          · dsimp only at hj ⊢
            rw [List.map_append, List.map_singleton, u.ident_make]
            by_cases hk : k = u.itemKey a
            · rw [hk, Function.update_self] at hj
              rw [← Option.some.inj hj]
              exact List.mem_append_right _ List.mem_cons_self
            · rw [Function.update_of_ne hk] at hj
              exact List.mem_append_left _ (h.known k j hj)
          · dsimp only at hi
            rw [Set.mem_ofPred_eq, List.map_append, List.map_singleton, u.ident_make,
              List.mem_append, List.mem_singleton] at hi
            rw [Set.mem_ofPred_eq]
            rcases hi with (hi | rfl) | hi
            · exact Or.inl hi
            · exact Or.inr le_rfl
            · exact Or.inr (by omega)

/-- **Renamed runs**: runs of upserts from states that differ by a renaming come to states that
differ by it. -/
theorem Renamed.upsertAll (h : u.Renamed σ ren s s') (l : List α) :
    u.Renamed σ ren (u.upsertAll ok l s) (u.upsertAll ok l s') := by
  induction l generalizing s s' with
  | nil => exact h
  | cons a l ih => exact ih (h.upsert hident hedit hmake a)

end Renamed

/-- What every write keeps of the records holds of all records after a run. -/
theorem upsertAll_forall {P : ρ → Prop} (hedit : ∀ a r, P r → P (u.edit a r))
    (hmake : ∀ a n, P (u.make a n)) (l : List α) (hs : ∀ r ∈ s.table, P r) :
    ∀ r ∈ (u.upsertAll ok l s).table, P r := by
  induction l generalizing s with
  | nil => exact hs
  | cons a l ih =>
      refine ih ?_
      dsimp only
      cases hok : ok a with
      | false => rwa [upsert_of_not_ok hok]
      | true =>
          cases hi : s.index (u.itemKey a) with
          | some i =>
              rw [upsert_of_some hok hi]
              intro r hr
              rcases mem_modifyAt.mp hr with ⟨hr, -⟩ | ⟨r₀, hr₀, -, rfl⟩
              · exact hs r hr
              · exact hedit a r₀ (hs r₀ hr₀)
          | none =>
              rw [upsert_of_none hok hi]
              intro r hr
              rcases List.mem_append.mp hr with hr | hr
              · exact hs r hr
              · rw [List.mem_singleton.mp hr]
                exact hmake a s.next

end Run

end Upsert

end Mogo
