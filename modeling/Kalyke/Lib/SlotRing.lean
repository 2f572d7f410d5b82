-- SUMMARY: A queue in the slots of an array, linked to a ring: paths along the links, search, append, remove.
import Mathlib.Data.List.Nodup
import Mathlib.Logic.Function.Iterate
import Mathlib.Tactic.Common

/-!
# Rings of Slots

Slots hold values, and each is linked to a next one. The slots from `head` on, up to but without
`tail`, are in use; from `tail` on back to `head` they are free, and there is always a free one.
A value is appended at `tail`. A slot is removed by moving `head` past it, or, behind `head`, by
linking the slot before it to the one behind it. That takes the slot out of the ring for good.
-/

variable {α : Type*}

/-! ## Paths -/

/-- Along the links, from `a` on, the slots of a list come one after the other, and then `b`. -/
def LinkPath (next : Nat → Nat) : Nat → List Nat → Nat → Prop
  | a, [], b => a = b
  | a, x :: xs, b => a = x ∧ LinkPath next (next x) xs b

namespace LinkPath

open List Function

variable {next next' : Nat → Nat} {a b c x : Nat} {xs ys : List Nat}

theorem nil_iff : LinkPath next a [] b ↔ a = b := Iff.rfl

theorem cons_iff : LinkPath next a (x :: xs) b ↔ a = x ∧ LinkPath next (next x) xs b := Iff.rfl

theorem append_iff : LinkPath next a (xs ++ ys) c ↔ ∃ b, LinkPath next a xs b ∧ LinkPath next b ys c := by
  induction xs generalizing a with
  | nil => simp [nil_iff]
  | cons x xs ih => simp only [cons_append, cons_iff, ih, exists_and_left, and_assoc]

/-- A path sees only the links of its own slots. -/
theorem congr (h : ∀ x ∈ xs, next' x = next x) : LinkPath next' a xs b ↔ LinkPath next a xs b := by
  induction xs generalizing a with
  | nil => exact Iff.rfl
  | cons x xs ih =>
    rw [cons_iff, cons_iff, h x mem_cons_self, ih fun y hy => h y (mem_cons_of_mem x hy)]

/-- The slots of a path are those reached by its first links. -/
theorem mem_iff_iterate (h : LinkPath next a xs b) : x ∈ xs ↔ ∃ n < xs.length, next^[n] a = x := by
  induction xs generalizing a with
  | nil => simp
  | cons y xs ih =>
    obtain ⟨rfl, hrest⟩ := h
    rw [mem_cons, ih hrest]
    constructor
    · rintro (rfl | ⟨n, hn, rfl⟩)
      · exact ⟨0, Nat.succ_pos _, rfl⟩
      · exact ⟨n + 1, Nat.succ_lt_succ hn, rfl⟩
    · rintro ⟨_ | n, hn, rfl⟩
      · exact .inl rfl
      · exact .inr ⟨n, Nat.lt_of_succ_lt_succ hn, rfl⟩

/-- All that is reached from a slot of a closed path is on it. -/
theorem iterate_mem (h : LinkPath next a xs a) (hne : xs ≠ []) (n : Nat) : next^[n] a ∈ xs := by
  have hnext : ∀ x ∈ xs, next x ∈ xs := by
    intro x hx
    obtain ⟨pre, post, rfl⟩ := append_of_mem hx
    obtain ⟨b, hpre, rfl, hpost⟩ := append_iff.mp h
    cases post with
    | nil =>
      have hb : next b = a := hpost
      rw [hb]
      cases pre with
      | nil => exact mem_singleton.mpr hpre
      | cons y pre => exact mem_append_left _ (hpre.1 ▸ mem_cons_self)
    | cons y post => simp [hpost.1]
  induction n with
  | zero =>
    cases xs with
    | nil => exact absurd rfl hne
    | cons y xs => exact h.1 ▸ mem_cons_self
  | succ n ih =>
    rw [iterate_succ_apply']
    exact hnext _ ih

/-- Two paths from a slot to another that is on neither are the same. -/
theorem unique (h : LinkPath next a xs b) (h' : LinkPath next a ys b) (hx : b ∉ xs) (hy : b ∉ ys) :
    xs = ys := by
  induction xs generalizing a ys with
  | nil =>
    cases ys with
    | nil => rfl
    | cons y ys => exact absurd (h'.1 ▸ (nil_iff.mp h).symm ▸ mem_cons_self) hy
  | cons x xs ih =>
    cases ys with
    | nil => exact absurd (h.1 ▸ (nil_iff.mp h').symm ▸ mem_cons_self) hx
    | cons y ys =>
      obtain ⟨rfl, hrest⟩ := h
      obtain ⟨rfl, hrest'⟩ := h'
      rw [ih hrest hrest' (fun hb => hx (mem_cons_of_mem _ hb))
        fun hb => hy (mem_cons_of_mem _ hb)]

end LinkPath

/-! ## Rings -/

/-- Slots with links, the first slot in use and the first free one. -/
structure SlotRing (α : Type*) where
  slot : Nat → α
  next : Nat → Nat
  head : Nat
  tail : Nat

namespace SlotRing

/-- The slots in use and the free slots, in the order of the links. -/
structure IsRing (r : SlotRing α) (busy free : List Nat) : Prop where
  busy_path : LinkPath r.next r.head busy r.tail
  free_path : LinkPath r.next r.tail free r.head
  free_ne_nil : free ≠ []
  nodup : (busy ++ free).Nodup

/-- What a search ends with: a slot and the one before it, or the end of the slots in use. -/
inductive Found where
  | at (pre idx : Nat)
  | nowhere
deriving DecidableEq, Repr

/-- The loop from a slot on to the first slot in use that is hit; none if it does not end within so
many steps. -/
def search (r : SlotRing α) (hit : α → Bool) : Nat → Nat → Nat → Option Found
  | 0, _, _ => none
  | n + 1, pre, idx =>
    if idx = r.tail then some .nowhere
    else if hit (r.slot idx) then some (.at pre idx)
    else search r hit n idx (r.next idx)

/-- The slots that a loop from a slot on visits before the first free one; none if it does not end
within so many steps. -/
def walk (r : SlotRing α) : Nat → Nat → Option (List Nat)
  | 0, _ => none
  | n + 1, idx => if idx = r.tail then some [] else (walk r n (r.next idx)).map (idx :: ·)

/-- Store a value in the first free slot, which is in use then. -/
def append (r : SlotRing α) (x : α) : SlotRing α :=
  { r with slot := Function.update r.slot r.tail x, tail := r.next r.tail }

/-- Remove a slot in use, given the one before it. -/
def remove (r : SlotRing α) (pre idx : Nat) : SlotRing α :=
  if idx = r.head then { r with head := r.next idx }
  else { r with next := Function.update r.next pre (r.next idx) }

/-- The values in use. -/
def values (r : SlotRing α) (busy : List Nat) : List α := busy.map r.slot

variable {r : SlotRing α} {busy free pre post rest : List Nat} {hit : α → Bool} {x : α}
  {i j k m n p : Nat}

namespace IsRing

theorem tail_mem (h : r.IsRing busy free) : r.tail ∈ free := by
  obtain ⟨y, ys, rfl⟩ := List.exists_cons_of_ne_nil h.free_ne_nil
  rw [h.free_path.1]
  exact List.mem_cons_self

theorem tail_notMem (h : r.IsRing busy free) : r.tail ∉ busy := fun hb =>
  List.disjoint_of_nodup_append h.nodup hb h.tail_mem

theorem closed (h : r.IsRing busy free) : LinkPath r.next r.head (busy ++ free) r.head :=
  LinkPath.append_iff.mpr ⟨r.tail, h.busy_path, h.free_path⟩

theorem reached_iff (h : r.IsRing busy free) :
    (∃ n, r.next^[n] r.head = k) ↔ k ∈ busy ++ free := by
  constructor
  · rintro ⟨n, rfl⟩
    exact h.closed.iterate_mem (by simp [h.free_ne_nil]) n
  · intro hk
    obtain ⟨n, -, hn⟩ := h.closed.mem_iff_iterate.mp hk
    exact ⟨n, hn⟩

/-- The slot behind the first free one is the head just if there is no other free one. -/
theorem next_tail_eq_iff (h : r.IsRing busy free) : r.next r.tail = r.head ↔ free = [r.tail] := by
  obtain ⟨y, ys, rfl⟩ := List.exists_cons_of_ne_nil h.free_ne_nil
  obtain ⟨rfl, hys⟩ := h.free_path
  constructor
  · intro hhead
    cases ys with
    | nil => rfl
    | cons z zs =>
      -- The head would be a second time on the ring.
      obtain rfl : r.next r.tail = z := hys.1
      exfalso
      cases busy with
      | nil =>
        have htail : r.head = r.tail := h.busy_path
        have hnodup := h.nodup
        rw [List.nil_append, hhead, htail, List.nodup_cons] at hnodup
        exact hnodup.1 List.mem_cons_self
      | cons b bs =>
        have hb : r.head = b := h.busy_path.1
        have hfree : b ∈ r.tail :: r.next r.tail :: zs := by
          rw [← hb, ← hhead]
          simp
        exact List.disjoint_of_nodup_append h.nodup List.mem_cons_self hfree
  · intro hfree
    obtain rfl : ys = [] := by simpa using hfree
    exact hys

/-! ## Search -/

theorem search_nowhere (h : LinkPath r.next i busy r.tail) (hno : r.tail ∉ busy)
    (hmiss : ∀ k ∈ busy, hit (r.slot k) = false) (hn : busy.length < n) :
    r.search hit n p i = some .nowhere := by
  induction busy generalizing i n p with
  | nil =>
    obtain ⟨n, rfl⟩ : ∃ m, n = m + 1 := ⟨n - 1, by omega⟩
    rw [search, if_pos (LinkPath.nil_iff.mp h)]
  | cons b bs ih =>
    obtain ⟨rfl, hbs⟩ := h
    obtain ⟨n, rfl⟩ : ∃ m, n = m + 1 := ⟨n - 1, by omega⟩
    have hne : i ≠ r.tail := fun heq => hno (heq ▸ List.mem_cons_self)
    rw [search, if_neg hne, if_neg (by simp [hmiss i List.mem_cons_self])]
    exact ih hbs (fun hb => hno (List.mem_cons_of_mem _ hb))
      (fun k hk => hmiss k (List.mem_cons_of_mem _ hk)) (by simpa using hn)

theorem search_at (h : LinkPath r.next i (pre ++ k :: post) r.tail) (hno : r.tail ∉ pre ++ k :: post)
    (hmiss : ∀ j ∈ pre, hit (r.slot j) = false) (hk : hit (r.slot k) = true)
    (hn : (pre ++ k :: post).length < n) :
    r.search hit n p i = some (.at (pre.getLastD p) k) := by
  induction pre generalizing i n p with
  | nil =>
    obtain ⟨rfl, -⟩ := h
    obtain ⟨n, rfl⟩ : ∃ m, n = m + 1 := ⟨n - 1, by simp at hn; omega⟩
    have hne : i ≠ r.tail := fun heq => hno (heq ▸ List.mem_cons_self)
    rw [search, if_neg hne, if_pos hk]
    rfl
  | cons b bs ih =>
    obtain ⟨rfl, hbs⟩ := h
    obtain ⟨n, rfl⟩ : ∃ m, n = m + 1 := ⟨n - 1, by simp at hn; omega⟩
    have hne : i ≠ r.tail := fun heq => hno (heq ▸ List.mem_cons_self)
    rw [search, if_neg hne, if_neg (by simp [hmiss i List.mem_cons_self]),
      ih hbs (fun hb => hno (List.mem_cons_of_mem _ hb))
        (fun k hk => hmiss k (List.mem_cons_of_mem _ hk)) (by simpa using hn)]
    cases bs <;> rfl

/-! ## Append -/

theorem append_room (h : r.IsRing busy (i :: j :: rest)) :
    (r.append x).IsRing (busy ++ [i]) (j :: rest) := by
  obtain ⟨rfl, hj⟩ := h.free_path
  refine ⟨?_, ?_, by simp, by simpa using h.nodup⟩
  · exact LinkPath.append_iff.mpr ⟨r.tail, h.busy_path, rfl, rfl⟩
  · exact hj

theorem append_full (h : r.IsRing busy [i]) : (r.append x).IsRing [] (busy ++ [i]) := by
  obtain ⟨rfl, hhead⟩ := h.free_path
  refine ⟨hhead.symm, ?_, by simp, by simpa using h.nodup⟩
  change LinkPath r.next (r.next r.tail) (busy ++ [r.tail]) r.head
  rw [hhead]
  exact LinkPath.append_iff.mpr ⟨r.tail, h.busy_path, rfl, hhead⟩

/-- The values in use after one more has been appended. -/
theorem values_append (h : r.IsRing busy free) :
    (r.append x).values (busy ++ [r.tail]) = r.values busy ++ [x] := by
  have hkeep : ∀ k ∈ busy, (r.append x).slot k = r.slot k := fun k hk =>
    Function.update_of_ne (fun heq : k = r.tail => h.tail_notMem (heq ▸ hk)) _ _
  rw [values, values, List.map_append, List.map_congr_left hkeep]
  simp [append]

/-! ## Remove -/

theorem remove_head (h : r.IsRing (i :: busy) free) :
    (r.remove p i).IsRing busy (free ++ [i]) ∧ (r.remove p i).slot = r.slot := by
  obtain ⟨hi, hbusy⟩ := h.busy_path
  have hremove : r.remove p i = { r with head := r.next i } := if_pos hi.symm
  rw [hremove]
  refine ⟨⟨hbusy, ?_, by simp, ?_⟩, rfl⟩
  · exact LinkPath.append_iff.mpr ⟨r.head, h.free_path, hi, rfl⟩
  · have hperm : (busy ++ (free ++ [i])).Perm (i :: busy ++ free) := by
      rw [← List.append_assoc]
      exact List.perm_append_singleton i (busy ++ free)
    exact hperm.nodup_iff.mpr h.nodup

theorem remove_middle (h : r.IsRing (pre ++ p :: i :: post) free) :
    (r.remove p i).IsRing (pre ++ p :: post) free ∧ (r.remove p i).slot = r.slot := by
  have hnodup := h.nodup
  obtain ⟨b, hpre, rfl, hi, hpost⟩ := LinkPath.append_iff.mp h.busy_path
  have hne : i ≠ r.head := by
    intro heq
    cases pre with
    | nil =>
      have hb : r.head = b := hpre
      rw [hb] at heq
      simp [heq] at hnodup
    | cons y pre =>
      have hy : r.head = y := hpre.1
      rw [hy] at heq
      simp [heq] at hnodup
  have hremove : r.remove b i = { r with next := Function.update r.next b (r.next i) } := if_neg hne
  rw [hremove]
  simp only [List.nodup_append, List.nodup_cons, List.mem_cons, List.mem_append] at hnodup
  have hkeep (k : Nat) (hk : k ≠ b) : Function.update r.next b (r.next i) k = r.next k :=
    Function.update_of_ne hk _ _
  have hpre' : ∀ k ∈ pre, k ≠ b := fun k hk => hnodup.1.2.2 k hk b (.inl rfl)
  have hpost' : ∀ k ∈ post, k ≠ b := by
    rintro k hk rfl
    exact hnodup.1.2.1.1 (.inr hk)
  have hfree' : ∀ k ∈ free, k ≠ b := by
    rintro k hk rfl
    exact hnodup.2.2 k (.inr (.inl rfl)) k hk rfl
  refine ⟨⟨?_, ?_, h.free_ne_nil, ?_⟩, rfl⟩
  · refine LinkPath.append_iff.mpr ⟨b, (LinkPath.congr fun k hk => hkeep k (hpre' k hk)).mpr hpre, rfl, ?_⟩
    rw [LinkPath.congr fun k hk => hkeep k (hpost' k hk)]
    simpa using hpost
  · exact (LinkPath.congr fun k hk => hkeep k (hfree' k hk)).mpr h.free_path
  · refine h.nodup.sublist ?_
    simp

/-! ## Slots by a Key -/

section

variable {κ : Type*} [DecidableEq κ] {key : α → κ} {c : κ}

/-- Where each key is at most once in use, a key in use is found, with the slot before it. -/
theorem search_key (h : r.IsRing busy free) (hkeys : ((r.values busy).map key).Nodup)
    (hc : c ∈ (r.values busy).map key) (hn : busy.length < n) :
    ∃ pre k post, busy = pre ++ k :: post ∧ key (r.slot k) = c ∧
      r.search (fun e => key e == c) n r.head r.head = some (.at (pre.getLastD r.head) k) := by
  rw [values, List.map_map] at hc hkeys
  obtain ⟨k, hk, hkey⟩ := List.mem_map.mp hc
  obtain ⟨pre, post, rfl⟩ := List.append_of_mem hk
  have hkey : key (r.slot k) = c := hkey
  refine ⟨pre, k, post, rfl, hkey, ?_⟩
  refine search_at h.busy_path h.tail_notMem (fun j hj => ?_) (by simp [hkey]) hn
  rw [List.map_append] at hkeys
  refine beq_eq_false_iff_ne.mpr fun heq => ?_
  refine List.disjoint_of_nodup_append hkeys (List.mem_map_of_mem hj) ?_
  simp [heq, hkey]

theorem search_key_nowhere (h : r.IsRing busy free) (hc : c ∉ (r.values busy).map key)
    (hn : busy.length < n) :
    r.search (fun e => key e == c) n r.head r.head = some .nowhere := by
  refine search_nowhere h.busy_path h.tail_notMem (fun k hk => ?_) hn
  refine beq_eq_false_iff_ne.mpr fun heq => hc ?_
  rw [values, List.map_map]
  exact List.mem_map.mpr ⟨k, hk, heq⟩

end

/-- What is left when the slot that a search has found is removed. Only the first slot in use is
free again. -/
theorem remove_at (h : r.IsRing (pre ++ k :: post) free) :
    (r.remove (pre.getLastD r.head) k).IsRing (pre ++ post) (if pre = [] then free ++ [k] else free) ∧
      (r.remove (pre.getLastD r.head) k).slot = r.slot := by
  rcases List.eq_nil_or_concat' pre with rfl | ⟨pre, p, rfl⟩
  · exact remove_head h
  · have hring : r.IsRing (pre ++ p :: k :: post) free := by simpa using h
    have hlast : (pre ++ [p]).getLastD r.head = p := by simp
    rw [hlast, if_neg (by simp), List.append_assoc]
    exact remove_middle hring

theorem walk_eq (h : LinkPath r.next i busy r.tail) (hno : r.tail ∉ busy) (hn : busy.length < n) :
    r.walk n i = some busy := by
  induction busy generalizing i n with
  | nil =>
    obtain ⟨n, rfl⟩ : ∃ m, n = m + 1 := ⟨n - 1, by omega⟩
    exact if_pos h
  | cons b bs ih =>
    obtain ⟨rfl, hbs⟩ := h
    obtain ⟨n, rfl⟩ : ∃ m, n = m + 1 := ⟨n - 1, by omega⟩
    have hne : i ≠ r.tail := fun heq => hno (heq ▸ List.mem_cons_self)
    rw [walk, if_neg hne, ih hbs (fun hb => hno (List.mem_cons_of_mem _ hb)) (by simpa using hn)]
    rfl

end IsRing

/-! ## Rings of a Size -/

/-- The slots form a ring of at most `n`. -/
def Fits (r : SlotRing α) (n : Nat) : Prop :=
  ∃ busy free, r.IsRing busy free ∧ busy.length + free.length ≤ n

namespace Fits

theorem length_lt (h : r.IsRing busy free) (hn : busy.length + free.length ≤ n) :
    busy.length < n := by
  have hfree := List.length_pos_of_ne_nil h.free_ne_nil
  omega

/-- Appending a value keeps the ring, also when there is no room for it. -/
theorem append (h : r.Fits n) : (r.append x).Fits n := by
  obtain ⟨busy, free, hring, hn⟩ := h
  obtain ⟨i, rest, rfl⟩ := List.exists_cons_of_ne_nil hring.free_ne_nil
  cases rest with
  | nil => exact ⟨_, _, hring.append_full, by simpa using hn⟩
  | cons j rest =>
    refine ⟨_, _, hring.append_room, ?_⟩
    simp only [List.length_append, List.length_cons, List.length_nil] at hn ⊢
    omega

/-- A search comes to an end, and what it finds can be removed. -/
theorem search (h : r.Fits n) (hm : n ≤ m) (hit : α → Bool) :
    r.search hit m r.head r.head = some .nowhere ∨
      ∃ p k, r.search hit m r.head r.head = some (.at p k) ∧ (r.remove p k).Fits n ∧
        (r.remove p k).slot = r.slot := by
  obtain ⟨busy, free, hring, hn⟩ := h
  have hlt : busy.length < m := Nat.lt_of_lt_of_le (length_lt hring hn) hm
  by_cases hmiss : ∀ k ∈ busy, hit (r.slot k) = false
  · exact .inl (IsRing.search_nowhere hring.busy_path hring.tail_notMem hmiss hlt)
  · push Not at hmiss
    have hfound : (busy.find? fun k => hit (r.slot k)).isSome = true := by
      rw [List.find?_isSome]
      obtain ⟨k, hk, hhit⟩ := hmiss
      exact ⟨k, hk, by simpa using hhit⟩
    obtain ⟨k, hfind⟩ := Option.isSome_iff_exists.mp hfound
    obtain ⟨hhit, pre, post, rfl, hpre⟩ := List.find?_eq_some_iff_append.mp hfind
    obtain ⟨hremove, hslot⟩ := hring.remove_at
    refine .inr ⟨_, k, ?_, ⟨_, _, hremove, ?_⟩, hslot⟩
    · exact IsRing.search_at hring.busy_path hring.tail_notMem
        (fun j hj => by simpa using hpre j hj) hhit hlt
    · simp only [List.length_append, List.length_cons] at hn ⊢
      split
      · simp only [List.length_append, List.length_cons, List.length_nil]
        omega
      · omega

/-- A loop over the slots in use visits each once. -/
theorem walk (h : r.Fits n) (hm : n ≤ m) :
    ∃ busy, r.walk m r.head = some busy ∧ busy.Nodup ∧ r.tail ∉ busy := by
  obtain ⟨busy, free, hring, hn⟩ := h
  have hlt : busy.length < m := Nat.lt_of_lt_of_le (length_lt hring hn) hm
  exact ⟨busy, IsRing.walk_eq hring.busy_path hring.tail_notMem hlt,
    (List.nodup_append.mp hring.nodup).1, hring.tail_notMem⟩

end Fits

end SlotRing
