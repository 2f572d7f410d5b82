-- SUMMARY: The lists of forced elements with their lengths, over whole runs of requests.
import Mathlib.Data.Fintype.Card
import Kalyke.Lib.Runs
import Kalyke.Modbus.Counters
import Kalyke.Modbus.Forcing

/-!
# Runs of Requests to Force

A list of forced elements is kept with its length, and the length decides whether the list is
searched. Each address should be in the list once, and an element that is released should no longer
be written. The first holds unless a request that finds the list empty names an address twice, the
second unless the element stays in the list under another address.
-/

namespace Kalyke

open List Function Option
open BitVec (toFin toNat_inj le_def)

/-- `mb_force_element_head_t`. -/
structure ForceList where
  listLen : BitVec 16
  head : List ListedElement
deriving DecidableEq, Repr

namespace ForceList

/-- The list as `plc_sysinit` leaves it. -/
def init : ForceList := ⟨0, []⟩

/-- The addresses in a list. -/
def addrs (l : ForceList) : List (BitVec 16) := l.head.map (·.modbusAddr)

/-- Append an element and count it. -/
def addTail (l : ForceList) (e : ListedElement) : ForceList := ⟨l.listLen + 1, l.head ++ [e]⟩

/-- An entry to force: an address and a value. Where the list is searched, an element that is in it
gets the new value. -/
def forceEntry (kind : AddrKind) (search : Bool) (a x : BitVec 16) (l : ForceList) :
    Option ForceList :=
  if search ∧ l.head.any (·.modbusAddr = a) then
    some { l with head := Slave.replaceValue a x l.head }
  else match mbSlaveConvertElementInfo kind a.toNat with
    | none => none
    | some (t, addr) => some (l.addTail ⟨t, addr, a, x⟩)

/-- The entries up to the first that is refused, and whether none is. -/
def forceEntries (kind : AddrKind) (search : Bool) :
    List (BitVec 16 × BitVec 16) → ForceList → ForceList × Bool
  | [], l => (l, true)
  | (a, x) :: es, l =>
    match l.forceEntry kind search a x with
    | none => (l, false)
    | some l => forceEntries kind search es l

/-- `mb_slave_ctrl_force_bits` and its sibling. A list of length zero is not searched. -/
def force (kind : AddrKind) (entries : List (BitVec 16 × BitVec 16)) (l : ForceList) :
    ForceList × Bool :=
  forceEntries kind (decide (0 < l.listLen)) entries l

/-- Delete the first element with an address. -/
def unforceEntry (l : ForceList) (a : BitVec 16) : ForceList :=
  if l.head.any (·.modbusAddr = a) then
    ⟨l.listLen - 1, l.head.eraseP (·.modbusAddr = a)⟩
  else l

/-- `mb_slave_ctrl_unforce_bits` and its sibling. -/
def unforce (as : List (BitVec 16)) (l : ForceList) : ForceList :=
  let l := if 0 < l.listLen then as.foldl unforceEntry l else l
  if l.listLen = 0 then { l with head := [] } else l

end ForceList

/-- The lists of bits and words. -/
abbrev ForceLists := AddrKind → ForceList

/-- A request to force elements, or to release them. -/
inductive ForceRequest where
  | force (kind : AddrKind) (entries : List (BitVec 16 × BitVec 16))
  | unforce (kind : AddrKind) (as : List (BitVec 16))
  | unforceAll
deriving DecidableEq, Repr

namespace ForceRequest

/-- A request names an address of one of the lists. -/
def Names : ForceRequest → AddrKind → BitVec 16 → Prop
  | force kind entries, k, a => k = kind ∧ a ∈ entries.map Prod.fst
  | unforce kind as, k, a => k = kind ∧ a ∈ as
  | unforceAll, _, _ => True

instance (r : ForceRequest) (kind : AddrKind) (a : BitVec 16) : Decidable (r.Names kind a) :=
  match r with
  | force k entries =>
    decidable_of_iff (kind = k ∧ (entries.map Prod.fst).contains a = true) (by simp [Names])
  | unforce k as => decidable_of_iff (kind = k ∧ as.contains a = true) (by simp [Names])
  | unforceAll => .isTrue trivial

def Releases (r : ForceRequest) (kind : AddrKind) (a : BitVec 16) : Prop :=
  (∀ k entries, r ≠ force k entries) ∧ r.Names kind a

end ForceRequest

namespace ForceLists

/-- The lists at the start. -/
def init : ForceLists := fun _ => .init

/-- What a request does to the lists. -/
def step (l : ForceLists) : ForceRequest → ForceLists
  | .force kind entries => update l kind ((l kind).force kind entries).1
  | .unforce kind as => update l kind ((l kind).unforce as)
  | .unforceAll => init

/-- No entry of a request is refused. -/
def Accepts (l : ForceLists) : ForceRequest → Prop
  | .force kind entries => ((l kind).force kind entries).2 = true
  | _ => True

end ForceLists

/-- The addresses of entries to force up to the first that is not mapped. -/
def reachedAddrs (kind : AddrKind) (entries : List (BitVec 16 × BitVec 16)) : List (BitVec 16) :=
  (entries.map Prod.fst).takeWhile fun a => (mbSlaveConvertElementInfo kind a.toNat).isSome

/-! ## What the Refresh Writes -/

def MbElement.cell (t : MbElement) (n : Nat) : AddrKind → Option Cell
  | .bit => t.bit?.map fun e => .bit e n
  | .word =>
    if t = .wordC ∧ c16Rang ≤ n then some (.c32 (c32RealAddr n)) else t.word?.map fun e => .word e n

def ListedElement.cell (e : ListedElement) (kind : AddrKind) : Option Cell :=
  e.elementType.cell e.elementAddr kind

/-- The cell of an address. -/
def addrCell (kind : AddrKind) (a : BitVec 16) : Option Cell :=
  (mbSlaveConvertElementInfo kind a.toNat).bind fun x => x.1.cell x.2 kind

/-- The words that have their turn in the refresh. An element that a counter takes its high half
from has none, and neither has a counter without such an element. -/
def wordTurns : List ListedElement → List ListedElement
  | [] => []
  | [e] => if e.OfC32 then [] else [e]
  | e :: e' :: es =>
    if e.OfC32 then if e'.elementType = .wordC then e :: wordTurns es else wordTurns (e' :: es)
    else e :: wordTurns (e' :: es)

/-- The elements of a list that have their turn in the refresh. -/
def turns : AddrKind → List ListedElement → List ListedElement
  | .bit => id
  | .word => wordTurns

namespace ForceLists

/-- A request to force that finds the list empty names an address twice. -/
def Repeats (l : ForceLists) : ForceRequest → Prop
  | .force kind entries => (l kind).listLen = 0 ∧ ¬ (reachedAddrs kind entries).Nodup
  | _ => False

/-- A request releases an element that is also listed under another address, which stays and has its
turn in the refresh. -/
def Lingers (l : ForceLists) : ForceRequest → Prop
  | .unforce kind as => ∃ a ∈ as, ∃ c, addrCell kind a = some c ∧
      ∃ e ∈ turns kind ((l kind).head.filter fun e =>
        ¬ (ForceRequest.unforce kind as).Names kind e.modbusAddr), e.cell kind = some c
  | _ => False

/-- A request does what it says. -/
structure Obeys (l : ForceLists) (r : ForceRequest) : Prop where
  once : ∀ kind, (l.step r kind).addrs.Nodup
  counted : ∀ kind, (l.step r kind).listLen.toNat = (l.step r kind).head.length
  /-- The last value given for an address is forced. -/
  forced : ∀ kind entries, r = .force kind entries → l.Accepts r →
    ∀ before a x after, entries = before ++ (a, x) :: after → a ∉ after.map Prod.fst →
      listedValue (l.step r kind).head a = some x
  released : ∀ kind a, r.Releases kind a → a ∉ (l.step r kind).addrs
  /-- What is released is left alone before each scan. -/
  notWritten : ∀ kind a c, r.Releases kind a → addrCell kind a = some c → ∀ headIsC st st',
    plcRefreshForceElementValue headIsC (fun kind => (l.step r kind).head) st = some st' →
    c.read st' = c.read st
  others : ∀ kind, (l.step r kind).head.filter (fun e => ¬ r.Names kind e.modbusAddr) =
    (l kind).head.filter fun e => ¬ r.Names kind e.modbusAddr

end ForceLists

/-! ## One List -/

theorem map_replaceValue (a x : BitVec 16) (es : List ListedElement) :
    (Slave.replaceValue a x es).map (·.modbusAddr) = es.map (·.modbusAddr) := by
  induction es with
  | nil => rfl
  | cons e es ih =>
    rw [Slave.replaceValue]
    split
    · rfl
    · rw [map_cons, map_cons, ih]

theorem filter_replaceValue {a : BitVec 16} (x : BitVec 16) (es : List ListedElement)
    {p : BitVec 16 → Bool} (hp : p a = false) :
    (Slave.replaceValue a x es).filter (fun e => p e.modbusAddr) =
      es.filter fun e => p e.modbusAddr := by
  induction es with
  | nil => rfl
  | cons e es ih =>
    rw [Slave.replaceValue]
    split_ifs with hea
    · simp [hea, hp]
    · simp [filter_cons, ih]

/-- Setting a value keeps what the elements are. -/
theorem mem_replaceValue {a x : BitVec 16} {es : List ListedElement} {e : ListedElement}
    (h : e ∈ Slave.replaceValue a x es) :
    ∃ e' ∈ es, e = { e' with elementValue := e.elementValue } := by
  induction es with
  | nil => cases h
  | cons e' es ih =>
    rw [Slave.replaceValue] at h
    split_ifs at h with hea
    · rcases mem_cons.mp h with rfl | h
      · exact ⟨e', mem_cons_self, rfl⟩
      · exact ⟨e, mem_cons_of_mem e' h, rfl⟩
    · rcases mem_cons.mp h with rfl | h
      · exact ⟨e, mem_cons_self, rfl⟩
      · obtain ⟨e'', hmem, heq⟩ := ih h
        exact ⟨e'', mem_cons_of_mem e' hmem, heq⟩

namespace ForceList

variable {kind : AddrKind} {l : ForceList} {es : List (BitVec 16 × BitVec 16)}

/-- A list of elements with different mapped addresses, and its length. -/
structure Inv (kind : AddrKind) (l : ForceList) : Prop where
  nodup : l.addrs.Nodup
  mapped : ∀ e ∈ l.head,
    mbSlaveConvertElementInfo kind e.modbusAddr.toNat = some (e.elementType, e.elementAddr)
  counted : l.listLen.toNat = l.head.length

theorem inv_init (kind : AddrKind) : Inv kind init where
  nodup := nodup_nil
  mapped := by simp [init]
  counted := rfl

/-- Not every address is mapped, so the length of a list fits. -/
theorem length_lt_of_mapped {as : List (BitVec 16)} (hnodup : as.Nodup)
    (hmapped : ∀ a ∈ as, (mbSlaveConvertElementInfo kind a.toNat).isSome) :
    as.length < 2 ^ 16 := by
  have hlast : (0xFFFF : BitVec 16) ∉ as := by
    intro hmem
    have hsome := hmapped _ hmem
    revert hsome
    cases kind <;> decide
  have hcons : (((0xFFFF : BitVec 16) :: as).map toFin).Nodup :=
    (nodup_cons.mpr ⟨hlast, hnodup⟩).map fun _ _ h => BitVec.toFin_inj.mp h
  have hcard := hcons.length_le_card
  rw [length_map, Fintype.card_fin] at hcard
  exact hcard

theorem Inv.head_eq_nil (h : l.Inv kind) (hlen : l.listLen = 0) : l.head = [] := by
  have hcounted := h.counted
  rw [hlen] at hcounted
  exact eq_nil_of_length_eq_zero hcounted.symm

theorem addrs_addTail (l : ForceList) (e : ListedElement) :
    (l.addTail e).addrs = l.addrs ++ [e.modbusAddr] := by
  simp [addrs, addTail]

theorem Inv.isSome_of_mem (h : l.Inv kind) {a : BitVec 16} (ha : a ∈ l.addrs) :
    (mbSlaveConvertElementInfo kind a.toNat).isSome := by
  obtain ⟨e, he, rfl⟩ := List.mem_map.mp ha
  rw [h.mapped e he, isSome_some]

theorem Inv.addTail (h : l.Inv kind) {e : ListedElement} (hnot : e.modbusAddr ∉ l.addrs)
    (hmap : mbSlaveConvertElementInfo kind e.modbusAddr.toNat =
      some (e.elementType, e.elementAddr)) :
    (l.addTail e).Inv kind := by
  have hnodup : (l.addTail e).addrs.Nodup := by
    rw [addrs_addTail, nodup_append]
    refine ⟨h.nodup, nodup_singleton _, fun a ha b hb hab => hnot ?_⟩
    rw [← mem_singleton.mp hb, ← hab]
    exact ha
  have hsome : ∀ a ∈ (l.addTail e).addrs, (mbSlaveConvertElementInfo kind a.toNat).isSome := by
    intro a ha
    rw [addrs_addTail, mem_append, mem_singleton] at ha
    rcases ha with ha | rfl
    · exact h.isSome_of_mem ha
    · rw [hmap, isSome_some]
  refine ⟨hnodup, fun e' he' => ?_, ?_⟩
  · rw [ForceList.addTail, mem_append, mem_singleton] at he'
    rcases he' with he' | rfl
    · exact h.mapped e' he'
    · exact hmap
  have hlt := length_lt_of_mapped hnodup hsome
  simp only [addrs, ForceList.addTail, length_map, length_append] at hlt
  simp only [ForceList.addTail, length_append, BitVec.toNat_add, h.counted]
  exact Nat.mod_eq_of_lt hlt

theorem forceEntry_searched (h : l.Inv kind) {a x : BitVec 16} {l' : ForceList}
    (hentry : l.forceEntry kind true a x = some l') :
    l'.Inv kind ∧ (∀ k, listedValue l'.head k = if k = a then some x else listedValue l.head k) ∧
      ∀ p : BitVec 16 → Bool, p a = false →
        l'.head.filter (fun e => p e.modbusAddr) = l.head.filter fun e => p e.modbusAddr := by
  unfold forceEntry at hentry
  split_ifs at hentry with hany
  · cases hentry
    obtain ⟨-, hany⟩ := hany
    refine ⟨⟨?_, ?_, ?_⟩, fun k => listedValue_replaceValue (any_listed.mp hany),
      fun p hp => filter_replaceValue x l.head hp⟩
    · rw [addrs, map_replaceValue]
      exact h.nodup
    · intro e he
      obtain ⟨e', he', heq⟩ := mem_replaceValue he
      rw [heq]
      exact h.mapped e' he'
    · have hlen := congrArg length (map_replaceValue a x l.head)
      rw [length_map, length_map] at hlen
      rw [hlen]
      exact h.counted
  · have hnot : a ∉ l.addrs := by
      intro ha
      obtain ⟨e, he, hea⟩ := List.mem_map.mp ha
      exact hany ⟨rfl, any_listed.mpr ⟨e, he, hea⟩⟩
    cases hconv : mbSlaveConvertElementInfo kind a.toNat with
    | none => simp [hconv] at hentry
    | some y =>
      obtain ⟨t, addr⟩ := y
      rw [hconv, some_inj] at hentry
      subst hentry
      refine ⟨h.addTail hnot hconv, fun k => ?_, fun p hp => ?_⟩
      · have hput := listedValue_putListed ⟨t, addr, a, x⟩ l.head k
        have hnot : ¬ l.head.any (·.modbusAddr = a) = true := fun h => hany ⟨rfl, h⟩
        rw [putListed, if_neg hnot] at hput
        exact hput
      · simp [ForceList.addTail, hp]

theorem forceEntries_searched (h : l.Inv kind) (es : List (BitVec 16 × BitVec 16)) :
    (forceEntries kind true es l).1.Inv kind ∧
      (∀ k, k ∉ es.map Prod.fst →
        listedValue (forceEntries kind true es l).1.head k = listedValue l.head k) ∧
      ((forceEntries kind true es l).2 = true → ∀ before a x after,
        es = before ++ (a, x) :: after → a ∉ after.map Prod.fst →
          listedValue (forceEntries kind true es l).1.head a = some x) ∧
      ∀ p : BitVec 16 → Bool, (∀ a ∈ es.map Prod.fst, p a = false) →
        (forceEntries kind true es l).1.head.filter (fun e => p e.modbusAddr) =
          l.head.filter fun e => p e.modbusAddr := by
  induction es generalizing l with
  | nil => exact ⟨h, fun _ _ => rfl, fun _ before a x after heq => by simp at heq, fun _ _ => rfl⟩
  | cons e es ih =>
    obtain ⟨a, x⟩ := e
    rw [forceEntries]
    cases hentry : l.forceEntry kind true a x with
    | none => exact ⟨h, fun _ _ => rfl, fun hfalse => by simp at hfalse, fun _ _ => rfl⟩
    | some l' =>
      obtain ⟨hinv, hvalue, hfilter⟩ := forceEntry_searched h hentry
      obtain ⟨hinv', hvalue', hforced, hfilter'⟩ := ih hinv
      refine ⟨hinv', fun k hk => ?_, fun hall before b y after heq hb => ?_, fun p hp => ?_⟩
      · rw [map_cons, mem_cons, not_or] at hk
        rw [hvalue' k hk.2, hvalue k, if_neg hk.1]
      · cases before with
        | nil =>
          obtain ⟨heq, rfl⟩ := cons_eq_cons.mp heq
          cases heq
          rw [hvalue' _ hb, hvalue, if_pos rfl]
        | cons e' before =>
          obtain ⟨-, heq⟩ := cons_eq_cons.mp heq
          exact hforced hall before b y after heq hb
      · rw [map_cons, forall_mem_cons] at hp
        exact (hfilter' p hp.2).trans (hfilter p hp.1)

/-- The addresses after entries to a list that is not searched. -/
theorem forceEntries_unsearched_addrs (kind : AddrKind) (es : List (BitVec 16 × BitVec 16))
    (l : ForceList) :
    (forceEntries kind false es l).1.addrs = l.addrs ++ reachedAddrs kind es := by
  induction es generalizing l with
  | nil => simp [forceEntries, reachedAddrs]
  | cons e es ih =>
    obtain ⟨a, x⟩ := e
    simp only [forceEntries, forceEntry, Bool.false_eq_true, false_and, if_false]
    cases hconv : mbSlaveConvertElementInfo kind a.toNat with
    | none => simp [reachedAddrs, hconv]
    | some y =>
      obtain ⟨t, addr⟩ := y
      simp only [ih, addrs_addTail]
      simp [reachedAddrs, hconv]

/-- Where no address is named twice, it does not matter whether the list is searched. -/
theorem forceEntries_unsearched (h : l.Inv kind)
    (hnodup : (l.addrs ++ reachedAddrs kind es).Nodup) :
    forceEntries kind false es l = forceEntries kind true es l := by
  induction es generalizing l with
  | nil => rfl
  | cons e es ih =>
    obtain ⟨a, x⟩ := e
    have hnot : a ∉ l.addrs := by
      intro ha
      have hmap := h.isSome_of_mem ha
      have hreached : a ∈ reachedAddrs kind ((a, x) :: es) := by simp [reachedAddrs, hmap]
      exact (nodup_append.mp hnodup).2.2 a ha a hreached rfl
    have hany : ¬ l.head.any (·.modbusAddr = a) = true := by
      intro hany
      obtain ⟨e, he, hea⟩ := any_listed.mp hany
      exact hnot (List.mem_map.mpr ⟨e, he, hea⟩)
    have hsame : l.forceEntry kind false a x = l.forceEntry kind true a x := by
      simp only [forceEntry, hany, Bool.false_eq_true, and_false]
    rw [forceEntries, forceEntries, hsame]
    cases hentry : l.forceEntry kind true a x with
    | none => rfl
    | some l' =>
      have hinv := (forceEntry_searched h hentry).1
      refine ih hinv ?_
      simp only [forceEntry, hany, Bool.false_eq_true, and_false, if_false] at hentry
      cases hconv : mbSlaveConvertElementInfo kind a.toNat with
      | none => simp [hconv] at hentry
      | some y =>
        obtain ⟨t, addr⟩ := y
        rw [hconv, some_inj] at hentry
        subst hentry
        have hcons : reachedAddrs kind ((a, x) :: es) = a :: reachedAddrs kind es := by
          simp [reachedAddrs, hconv]
        rw [hcons] at hnodup
        rw [addrs_addTail, append_assoc]
        exact hnodup

/-- A request to force a list is as on a list that is searched, unless it repeats an address. -/
theorem force_eq (h : l.Inv kind) (hnot : ¬ (l.listLen = 0 ∧ ¬ (reachedAddrs kind es).Nodup)) :
    l.force kind es = forceEntries kind true es l := by
  unfold ForceList.force
  by_cases hlen : l.listLen = 0
  · have hnil := h.head_eq_nil hlen
    have hnodup : (reachedAddrs kind es).Nodup := by
      by_contra hrep
      exact hnot ⟨hlen, hrep⟩
    rw [hlen]
    refine forceEntries_unsearched h ?_
    simpa [addrs, hnil] using hnodup
  · have hpos : 0 < l.listLen := by
      rw [BitVec.lt_def]
      have : l.listLen.toNat ≠ 0 := fun h => hlen (toNat_inj.mp h)
      simpa using Nat.pos_of_ne_zero this
    rw [decide_eq_true hpos]

/-- Where an address is in the list once at most, deleting its first element deletes all. -/
theorem eraseP_eq_filter {es : List ListedElement} (hnodup : (es.map (·.modbusAddr)).Nodup)
    (a : BitVec 16) :
    es.eraseP (·.modbusAddr = a) = es.filter fun e => ¬ e.modbusAddr = a := by
  induction es with
  | nil => rfl
  | cons e es ih =>
    rw [map_cons, nodup_cons] at hnodup
    by_cases hea : e.modbusAddr = a
    · have hkeep : es.filter (fun e => ¬ e.modbusAddr = a) = es := by
        rw [filter_eq_self]
        intro e' he'
        refine decide_eq_true fun he'a => hnodup.1 ?_
        rw [hea, ← he'a]
        exact List.mem_map_of_mem he'
      simp only [eraseP_cons, filter_cons, hea] at hkeep ⊢
      exact hkeep.symm
    · simp only [eraseP_cons, filter_cons, hea, decide_false, not_false_eq_true,
        decide_true, cond_false, if_true, ih hnodup.2]

theorem Inv.filter (h : l.Inv kind) {n : BitVec 16} (p : ListedElement → Bool)
    (hn : n.toNat = (l.head.filter p).length) : Inv kind ⟨n, l.head.filter p⟩ where
  nodup := h.nodup.sublist (filter_sublist.map _)
  mapped e he := h.mapped e (filter_sublist.subset he)
  counted := hn

/-- The element with an address is deleted from the list. -/
theorem Inv.unforceEntry (h : l.Inv kind) (a : BitVec 16) :
    (l.unforceEntry a).Inv kind ∧
      (l.unforceEntry a).head = l.head.filter fun e => ¬ e.modbusAddr = a := by
  unfold ForceList.unforceEntry
  split_ifs with hany
  · have hlen : (l.head.eraseP (·.modbusAddr = a)).length = l.head.length - 1 := by
      obtain ⟨e, he, hea⟩ := any_listed.mp hany
      exact length_eraseP_of_mem he (decide_eq_true hea)
    have hpos : 0 < l.head.length := by
      obtain ⟨e, he, -⟩ := any_listed.mp hany
      exact length_pos_of_mem he
    have hcounted := h.counted
    rw [eraseP_eq_filter h.nodup] at hlen ⊢
    refine ⟨h.filter _ ?_, rfl⟩
    rw [hlen, BitVec.toNat_sub_of_le, hcounted]
    · rfl
    · rw [le_def, hcounted]
      exact hpos
  · refine ⟨h, ?_⟩
    rw [eq_comm, filter_eq_self]
    intro e he
    exact decide_eq_true fun hea => hany (any_listed.mpr ⟨e, he, hea⟩)

/-- The elements with some addresses are deleted from the list. -/
theorem Inv.unforce (h : l.Inv kind) (as : List (BitVec 16)) :
    (l.unforce as).Inv kind ∧
      (l.unforce as).head = l.head.filter fun e => e.modbusAddr ∉ as := by
  have hfold (as : List (BitVec 16)) {l : ForceList} (h : l.Inv kind) :
      (as.foldl ForceList.unforceEntry l).Inv kind ∧
        (as.foldl ForceList.unforceEntry l).head = l.head.filter fun e => e.modbusAddr ∉ as := by
    induction as generalizing l with
    | nil => exact ⟨h, by simp⟩
    | cons a as ih =>
      obtain ⟨hinv, hhead⟩ := h.unforceEntry a
      obtain ⟨hinv', hhead'⟩ := ih hinv
      refine ⟨hinv', ?_⟩
      rw [foldl_cons, hhead', hhead]
      simp [Bool.and_comm]
  have hall : (if 0 < l.listLen then as.foldl ForceList.unforceEntry l else l).Inv kind ∧
      (if 0 < l.listLen then as.foldl ForceList.unforceEntry l else l).head =
        l.head.filter fun e => e.modbusAddr ∉ as := by
    split_ifs with hpos
    · exact hfold as h
    · have hzero : l.listLen = 0 := by
        exact toNat_inj.mp (Nat.eq_zero_of_not_pos hpos)
      exact ⟨h, by rw [h.head_eq_nil hzero, filter_nil]⟩
  unfold ForceList.unforce
  dsimp only
  generalize (if 0 < l.listLen then as.foldl ForceList.unforceEntry l else l) = l' at hall
  obtain ⟨hinv, hhead⟩ := hall
  split_ifs with hzero
  · have hnil := hinv.head_eq_nil hzero
    rw [← hnil]
    exact ⟨hinv, hhead⟩
  · exact ⟨hinv, hhead⟩

end ForceList

/-! ## Turns -/

theorem forceBit_read {e : ListedElement} {c : Cell} (h : e.cell .bit ≠ some c) (st : Store) :
    c.read (e.forceBit st) = c.read st := by
  unfold ListedElement.forceBit
  unfold ListedElement.cell MbElement.cell at h
  cases hbit : e.elementType.bit? with
  | none => rfl
  | some t =>
    rw [hbit] at h
    have hne : c ≠ BitArea.cell (.elem t) e.elementAddr := fun hc => h (congrArg some hc.symm)
    exact read_setBit hne _

theorem cell_of_ofC32 {e : ListedElement} (h : e.OfC32) :
    e.cell .word = some (.c32 (c32RealAddr e.elementAddr)) := if_pos h

theorem cell_of_not_ofC32 {e : ListedElement} (h : ¬ e.OfC32) :
    e.cell .word = e.elementType.word?.map fun t => .word t e.elementAddr := if_neg h

theorem forceWord_read {e : ListedElement} (hc32 : ¬ e.OfC32) {c : Cell}
    (h : e.cell .word ≠ some c) (st : Store) : c.read (e.forceWord st) = c.read st := by
  rw [cell_of_not_ofC32 hc32] at h
  unfold ListedElement.forceWord
  cases hword : e.elementType.word? with
  | none => rfl
  | some t =>
    rw [hword] at h
    have hne : c ≠ WordArea.cell (.elem t) e.elementAddr := fun hc => h (congrArg some hc.symm)
    exact read_setWord hne _

/-- The refresh of forced words leaves alone what has no turn. -/
theorem forceWords_read {headIsC : Bool} {es : List ListedElement} {c : Cell}
    (h : ∀ e ∈ wordTurns es, e.cell .word ≠ some c) {st st' : Store}
    (hrefresh : forceWords headIsC es st = some st') : c.read st' = c.read st := by
  fun_induction forceWords headIsC es st with
  | case1 st =>
    cases hrefresh
    rfl
  | case2 => cases hrefresh
  | case3 =>
    cases hrefresh
    rfl
  | case4 e st hc32 =>
    cases hrefresh
    rw [wordTurns, if_neg hc32] at h
    exact forceWord_read hc32 (h e mem_cons_self) st
  | case5 e e' es st hc32 he' ih =>
    rw [wordTurns, if_pos hc32, if_pos he', forall_mem_cons, cell_of_ofC32 hc32] at h
    rw [ih h.2 hrefresh]
    exact read_setC32 (fun hc => h.1 (congrArg some hc.symm)) _
  | case6 e e' es st hc32 he' ih =>
    rw [wordTurns, if_pos hc32, if_neg he'] at h
    exact ih h hrefresh
  | case7 e e' es st hc32 ih =>
    rw [wordTurns, if_neg hc32, forall_mem_cons] at h
    rw [ih h.2 hrefresh]
    exact forceWord_read hc32 h.1 st

theorem forceBits_read {es : List ListedElement} {c : Cell} (h : ∀ e ∈ es, e.cell .bit ≠ some c)
    (st : Store) : c.read (es.foldl ListedElement.forceBit st) = c.read st := by
  induction es generalizing st with
  | nil => rfl
  | cons e es ih =>
    rw [forall_mem_cons] at h
    exact (ih h.2 _).trans (forceBit_read h.1 st)

/-- The refresh leaves alone what has no turn. -/
theorem refresh_read {headIsC : Bool} {force : AddrKind → List ListedElement} {c : Cell}
    (h : ∀ kind, ∀ e ∈ turns kind (force kind), e.cell kind ≠ some c) {st st' : Store}
    (hrefresh : plcRefreshForceElementValue headIsC force st = some st') :
    c.read st' = c.read st :=
  (forceWords_read (h .word) hrefresh).trans (forceBits_read (h .bit) st)

/-- A forced bit has the same value in every state. -/
theorem forceBit_sets {e : ListedElement} {c : Cell} (h : e.cell .bit = some c) :
    ∃ v, ∀ st, c.read (e.forceBit st) = v := by
  obtain ⟨t, ht, rfl⟩ := map_eq_some_iff.mp h
  refine ⟨BitVec.ofNat 32 (loByte e.elementValue != 0).toNat, fun st => ?_⟩
  unfold ListedElement.forceBit
  rw [ht]
  exact congrArg (fun b => BitVec.ofNat 32 b.toNat) (getBit_setBit_self (.elem t) _ _)

/-- A forced word has the same value in every state. -/
theorem forceWord_sets {e : ListedElement} (hc32 : ¬ e.OfC32) {c : Cell}
    (h : e.cell .word = some c) : ∃ v, ∀ st, c.read (e.forceWord st) = v := by
  rw [cell_of_not_ofC32 hc32] at h
  obtain ⟨t, ht, rfl⟩ := map_eq_some_iff.mp h
  refine ⟨e.elementValue.setWidth 32, fun st => ?_⟩
  unfold ListedElement.forceWord
  rw [ht]
  exact congrArg (BitVec.setWidth 32) (getWord_setWord_self (.elem t) _ _)

theorem sets_of_rest {headIsC : Bool} {c : Cell} {es : List ListedElement} {set : Store → Store}
    (hset : ∃ v, ∀ st, c.read (set st) = v)
    (hrest : (∃ e ∈ wordTurns es, e.cell .word = some c) →
      ∃ v, ∀ st st', forceWords headIsC es st = some st' → c.read st' = v) :
    ∃ v, ∀ st st', forceWords headIsC es (set st) = some st' → c.read st' = v := by
  by_cases hin : ∃ e ∈ wordTurns es, e.cell .word = some c
  · obtain ⟨v, hv⟩ := hrest hin
    exact ⟨v, fun st => hv (set st)⟩
  · obtain ⟨v, hv⟩ := hset
    refine ⟨v, fun st st' hrefresh => ?_⟩
    rw [forceWords_read (fun e he hc => hin ⟨e, he, hc⟩) hrefresh]
    exact hv st

/-- What has a turn in the refresh of forced words has the same value after it in every state. -/
theorem forceWords_sets (headIsC : Bool) {es : List ListedElement} {c : Cell}
    (h : ∃ e ∈ wordTurns es, e.cell .word = some c) :
    ∃ v, ∀ st st', forceWords headIsC es st = some st' → c.read st' = v := by
  induction es using wordTurns.induct with
  | case1 =>
    obtain ⟨e, he, -⟩ := h
    cases he
  | case2 e hc32 =>
    rw [wordTurns, if_pos hc32] at h
    obtain ⟨e, he, -⟩ := h
    cases he
  | case3 e hc32 =>
    rw [wordTurns, if_neg hc32] at h
    obtain ⟨e', he', hc⟩ := h
    rw [mem_singleton] at he'
    subst he'
    obtain ⟨v, hv⟩ := forceWord_sets hc32 hc
    refine ⟨v, fun st st' hrefresh => ?_⟩
    rw [forceWords, if_neg hc32, some_inj] at hrefresh
    rw [← hrefresh]
    exact hv st
  | case4 e e' es hc32 he' ih =>
    rw [wordTurns, if_pos hc32, if_pos he', exists_mem_cons_iff] at h
    simp only [forceWords, if_pos hc32, if_pos he']
    rcases h with hc | h
    · refine sets_of_rest ⟨e'.elementValue ++ e.elementValue, fun st => ?_⟩ ih
      rw [cell_of_ofC32 hc32, some_inj] at hc
      rw [← hc]
      exact c32_setC32_self _ _
    · obtain ⟨v, hv⟩ := ih h
      exact ⟨v, fun st => hv _⟩
  | case5 e e' es hc32 he' ih =>
    rw [wordTurns, if_pos hc32, if_neg he'] at h
    simp only [forceWords, if_pos hc32, if_neg he']
    exact ih h
  | case6 e e' es hc32 ih =>
    rw [wordTurns, if_neg hc32, exists_mem_cons_iff] at h
    simp only [forceWords, if_neg hc32]
    rcases h with hc | h
    · exact sets_of_rest (forceWord_sets hc32 hc) ih
    · obtain ⟨v, hv⟩ := ih h
      exact ⟨v, fun st => hv _⟩

/-- The same of the refresh of forced bits. -/
theorem forceBits_sets {es : List ListedElement} {c : Cell} (h : ∃ e ∈ es, e.cell .bit = some c) :
    ∃ v, ∀ st, c.read (es.foldl ListedElement.forceBit st) = v := by
  induction es with
  | nil =>
    obtain ⟨e, he, -⟩ := h
    cases he
  | cons e es ih =>
    by_cases hin : ∃ e ∈ es, e.cell .bit = some c
    · obtain ⟨v, hv⟩ := ih hin
      exact ⟨v, fun st => hv _⟩
    · obtain ⟨v, hv⟩ := forceBit_sets (((exists_mem_cons_iff _ _ _).mp h).resolve_right hin)
      refine ⟨v, fun st => ?_⟩
      rw [foldl_cons, forceBits_read (fun e he hc => hin ⟨e, he, hc⟩)]
      exact hv st

/-- What has a turn has the same value after the refresh of every state. -/
theorem refresh_sets (headIsC : Bool) (force : AddrKind → List ListedElement) {kind : AddrKind}
    {c : Cell} (h : ∃ e ∈ turns kind (force kind), e.cell kind = some c) :
    ∃ v, ∀ st st', plcRefreshForceElementValue headIsC force st = some st' → c.read st' = v := by
  by_cases hword : ∃ e ∈ wordTurns (force .word), e.cell .word = some c
  · obtain ⟨v, hv⟩ := forceWords_sets headIsC hword
    exact ⟨v, fun st => hv _⟩
  · cases kind with
    | bit =>
      obtain ⟨v, hv⟩ := forceBits_sets h
      refine ⟨v, fun st st' hrefresh => ?_⟩
      rw [forceWords_read (fun e he hc => hword ⟨e, he, hc⟩) hrefresh]
      exact hv st
    | word => exact absurd h hword

/-- The refresh ends if nothing behind the last element looks like a counter. -/
theorem forceWords_isSome (es : List ListedElement) (st : Store) :
    ∃ st', forceWords false es st = some st' := by
  fun_induction forceWords false es st with
  | case1 st => exact ⟨st, rfl⟩
  | case2 e st hc32 hhead => cases hhead
  | case3 e st hc32 => exact ⟨st, rfl⟩
  | case4 e st hc32 => exact ⟨e.forceWord st, rfl⟩
  | case5 e e' es st hc32 he' ih => exact ih
  | case6 e e' es st hc32 he' ih => exact ih
  | case7 e e' es st hc32 ih => exact ih

/-- No cell has one value only. -/
theorem exists_read_ne (c : Cell) : ∃ st st' : Store, c.read st ≠ c.read st' := by
  refine ⟨Store.off, { Store.off with
    bit := fun _ _ => true, lm := fun _ => true, word := fun _ _ => 1, v := fun _ => 1,
    c32 := fun _ => 1 }, ?_⟩
  cases c <;> simp [Cell.read, Store.off]

/-! ## A Request -/

namespace ForceLists

variable {l : ForceLists} {r : ForceRequest}

/-- Both lists hold different mapped addresses. -/
def Inv (l : ForceLists) : Prop := ∀ kind, (l kind).Inv kind

theorem inv_init : Inv init := fun kind => ForceList.inv_init kind

theorem step_self (kind : AddrKind) (entries : List (BitVec 16 × BitVec 16)) :
    l.step (.force kind entries) kind = ((l kind).force kind entries).1 :=
  update_self kind _ l

theorem step_inv (h : l.Inv) (hrep : ¬ l.Repeats r) : (l.step r).Inv := by
  intro k
  cases r with
  | force kind entries =>
    by_cases hk : k = kind
    · subst hk
      rw [step_self, ForceList.force_eq (h k) hrep]
      exact (ForceList.forceEntries_searched (h k) entries).1
    · rw [step, update_of_ne hk]
      exact h k
  | unforce kind as =>
    by_cases hk : k = kind
    · subst hk
      rw [step, update_self]
      exact ((h k).unforce as).1
    · rw [step, update_of_ne hk]
      exact h k
  | unforceAll => exact ForceList.inv_init k

theorem filter_not_names (kind : AddrKind) (as : List (BitVec 16)) (es : List ListedElement) :
    es.filter (fun e => ¬ (ForceRequest.unforce kind as).Names kind e.modbusAddr) =
      es.filter fun e => e.modbusAddr ∉ as :=
  filter_congr fun e _ => by simp [ForceRequest.Names]

/-- The lists after addresses are released. -/
theorem step_unforce (h : l.Inv) (kind : AddrKind) (as : List (BitVec 16)) (k : AddrKind) :
    (l.step (.unforce kind as) k).head =
      if k = kind then (l kind).head.filter fun e => e.modbusAddr ∉ as else (l k).head := by
  rw [step]
  split_ifs with hk
  · subst hk
    rw [update_self]
    exact ((h k).unforce as).2
  · rw [update_of_ne hk]

theorem cell_kind {t t' : MbElement} {n n' : Nat} {k kind : AddrKind} {c : Cell}
    (h : t.cell n k = some c) (h' : t'.cell n' kind = some c) : k = kind := by
  have hbit {t : MbElement} {n : Nat} {e : BitElement} {i : Nat} :
      t.cell n .word ≠ some (.bit e i) := by
    unfold MbElement.cell
    split_ifs <;> simp
  cases k with
  | bit =>
    obtain ⟨e, -, rfl⟩ := map_eq_some_iff.mp h
    cases kind with
    | bit => rfl
    | word => exact absurd h' hbit
  | word =>
    cases kind with
    | bit =>
      obtain ⟨e, -, rfl⟩ := map_eq_some_iff.mp h'
      exact absurd h hbit
    | word => rfl

theorem addrCell_kind {a : BitVec 16} {e : ListedElement} {k kind : AddrKind} {c : Cell}
    (h : addrCell k a = some c) (h' : e.cell kind = some c) : k = kind := by
  obtain ⟨x, -, hx⟩ := bind_eq_some_iff.mp h
  exact cell_kind hx h'

theorem forced_of_not_repeats (h : l.Inv) (hrep : ¬ l.Repeats r) {kind : AddrKind}
    {entries : List (BitVec 16 × BitVec 16)} (hr : r = .force kind entries) (hacc : l.Accepts r)
    {before after : List (BitVec 16 × BitVec 16)} {a x : BitVec 16}
    (hsplit : entries = before ++ (a, x) :: after) (hafter : a ∉ after.map Prod.fst) :
    listedValue (l.step r kind).head a = some x := by
  subst hr
  have hforce := ForceList.force_eq (h kind) hrep
  rw [Accepts, hforce] at hacc
  rw [step_self, hforce]
  exact (ForceList.forceEntries_searched (h kind) entries).2.2.1 hacc before a x after hsplit hafter

theorem released_of_inv (h : l.Inv) {kind : AddrKind} {a : BitVec 16} (hrel : r.Releases kind a) :
    a ∉ (l.step r kind).addrs := by
  intro hmem
  obtain ⟨e, he, rfl⟩ := List.mem_map.mp hmem
  cases r with
  | force k entries => exact hrel.1 k entries rfl
  | unforce k as =>
    obtain ⟨-, rfl, ha⟩ := hrel
    rw [step_unforce h, if_pos rfl, mem_filter, decide_eq_true_eq] at he
    exact he.2 ha
  | unforceAll => cases he

theorem notWritten_of_not_lingers (h : l.Inv) (hling : ¬ l.Lingers r) {kind : AddrKind}
    {a : BitVec 16} {c : Cell} (hrel : r.Releases kind a) (hc : addrCell kind a = some c)
    {headIsC : Bool} {st st' : Store}
    (hrefresh : plcRefreshForceElementValue headIsC (fun kind => (l.step r kind).head) st =
      some st') : c.read st' = c.read st := by
  refine refresh_read (fun k e he hec => ?_) hrefresh
  have hk := addrCell_kind hc hec
  subst hk
  cases r with
  | force k entries => exact hrel.1 k entries rfl
  | unforce k as =>
    obtain ⟨-, rfl, ha⟩ := hrel
    have hhead := step_unforce h kind as kind
    rw [if_pos rfl] at hhead
    rw [hhead, ← filter_not_names] at he
    exact hling ⟨a, ha, c, hc, e, he, hec⟩
  | unforceAll => cases kind <;> cases he

theorem others_of_not_repeats (h : l.Inv) (hrep : ¬ l.Repeats r) (k : AddrKind) :
    (l.step r k).head.filter (fun e => ¬ r.Names k e.modbusAddr) =
      (l k).head.filter fun e => ¬ r.Names k e.modbusAddr := by
  cases r with
  | force kind entries =>
    by_cases hk : k = kind
    · subst hk
      rw [step_self, ForceList.force_eq (h k) hrep]
      have hothers := (ForceList.forceEntries_searched (h k) entries).2.2.2
        (fun a => decide ¬ (ForceRequest.force k entries).Names k a)
      refine hothers fun a ha => ?_
      exact decide_eq_false fun hnot => hnot ⟨rfl, ha⟩
    · rw [step, update_of_ne hk]
  | unforce kind as =>
    rw [step_unforce h]
    split_ifs with hk
    · subst hk
      rw [List.filter_filter]
      refine filter_congr fun e _ => ?_
      simp [ForceRequest.Names]
    · rfl
  | unforceAll => simp [ForceRequest.Names]

/-- A list that was empty holds the addresses of a request one by one. -/
theorem not_obeys_of_repeats (h : l.Inv) (hrep : l.Repeats r) : ¬ l.Obeys r := by
  intro hobeys
  cases r with
  | force kind entries =>
    obtain ⟨hlen, hdup⟩ := hrep
    have honce := hobeys.once kind
    have hnil := (h kind).head_eq_nil hlen
    rw [step_self, ForceList.force, hlen] at honce
    have haddrs := ForceList.forceEntries_unsearched_addrs kind entries (l kind)
    have hempty : (l kind).addrs = [] := by rw [ForceList.addrs, hnil, map_nil]
    rw [hempty, nil_append] at haddrs
    rw [← haddrs] at hdup
    exact hdup honce
  | unforce kind as => exact hrep
  | unforceAll => exact hrep

/-- An element that lingers has one value after the refresh of every state. -/
theorem not_obeys_of_lingers (h : l.Inv) (hling : l.Lingers r) : ¬ l.Obeys r := by
  intro hobeys
  cases r with
  | force kind entries => exact hling
  | unforce kind as =>
    obtain ⟨a, ha, c, hc, e, he, hec⟩ := hling
    have hhead : (l.step (.unforce kind as) kind).head =
        (l kind).head.filter fun e => ¬ (ForceRequest.unforce kind as).Names kind e.modbusAddr := by
      rw [step_unforce h, if_pos rfl, filter_not_names]
    rw [← hhead] at he
    obtain ⟨v, hv⟩ := refresh_sets false (fun k => (l.step (.unforce kind as) k).head) ⟨e, he, hec⟩
    have hkept (st : Store) : c.read st = v := by
      obtain ⟨st', hrefresh⟩ := forceWords_isSome
        ((fun k => (l.step (.unforce kind as) k).head) .word) (foldl ListedElement.forceBit st
          ((fun k => (l.step (.unforce kind as) k).head) .bit))
      have hrel : (ForceRequest.unforce kind as).Releases kind a :=
        ⟨fun _ _ => ForceRequest.noConfusion, rfl, ha⟩
      rw [← hobeys.notWritten kind a c hrel hc false st st' hrefresh]
      exact hv st st' hrefresh
    obtain ⟨st, st', hne⟩ := exists_read_ne c
    exact hne ((hkept st).trans (hkept st').symm)
  | unforceAll => exact hling

theorem obeys_iff (h : l.Inv) : l.Obeys r ↔ ¬ l.Repeats r ∧ ¬ l.Lingers r := by
  constructor
  · intro hobeys
    exact ⟨fun hrep => not_obeys_of_repeats h hrep hobeys,
      fun hling => not_obeys_of_lingers h hling hobeys⟩
  · rintro ⟨hrep, hling⟩
    have hinv := step_inv h hrep
    exact {
      once := fun kind => (hinv kind).nodup
      counted := fun kind => (hinv kind).counted
      forced := fun _ _ hr hacc _ _ _ _ => forced_of_not_repeats h hrep hr hacc
      released := fun _ _ => released_of_inv h
      notWritten := fun _ _ _ hrel hc _ _ _ => notWritten_of_not_lingers h hling hrel hc
      others := others_of_not_repeats h hrep }

/-! ## Runs -/

/-- In a run from the start each request does what it says exactly where none repeats an address in
an empty list and none releases an element that stays listed under another address. -/
theorem forceLists_obey_iff (rs : List ForceRequest) :
    Each step Obeys init rs ↔ Each step (fun l r => ¬ l.Repeats r ∧ ¬ l.Lingers r) init rs := by
  have hlegal : Each step (fun _ _ => True) init rs := fun _ _ _ _ => trivial
  refine Each.iff_of_invariant inv_init hlegal (fun l r h _ => obeys_iff h) ?_
  exact fun l r h _ hr => step_inv h hr.1

/-- Two entries for `Y0` in the empty list are both entered. -/
theorem y0_forced_twice : ¬ ∀ rs, Each step Obeys init rs := by
  intro h
  have hobeys := h [.force .bit [(0, 1), (0, 0)]] [] _ [] rfl
  exact absurd (hobeys.once .bit) (by decide)

end ForceLists

/-! ## The Functions of the Slave -/

variable {ω : Type}

namespace Slave

def forceEntries (s : Slave ω) (kind : AddrKind) : List (BitVec 16 × BitVec 16) :=
  (range (s.receiveBuff 3).toNat).map fun i => (s.forceAddr kind i, s.forceValue kind i)

/-- The addresses of a request to release. -/
def unforceAddrs (s : Slave ω) : List (BitVec 16) :=
  (range (s.receiveBuff 3).toNat).map fun i => s.receiveBuff.bigPU16 (4 + 2 * i)

/-- The request to force or to release that a control is. -/
def forceRequest? (s : Slave ω) : CtrlOp → Option ForceRequest
  | .force kind => some (.force kind (s.forceEntries kind))
  | .unforce kind => some (.unforce kind s.unforceAddrs)
  | .unforceAll => some .unforceAll
  | _ => none

/-- The lists of the slave, with their lengths. -/
structure HasLists (s : Slave ω) (l : ForceLists) : Prop where
  head : ∀ kind, s.force kind = (l kind).head
  counted : ∀ kind, (l kind).listLen.toNat = (l kind).head.length

variable {s t : Slave ω} {l : ForceLists}

theorem entryLoop_force {kind : AddrKind} (search : Bool) {lst : ForceList} (is : List Nat)
    (ht : t.receiveBuff = s.receiveBuff) (hlst : t.force kind = lst.head) :
    entryLoop (forceEntry kind search) is false t =
      (t.setForce kind (ForceList.forceEntries kind search
          (is.map fun i => (s.forceAddr kind i, s.forceValue kind i)) lst).1.head,
        if (ForceList.forceEntries kind search
          (is.map fun i => (s.forceAddr kind i, s.forceValue kind i)) lst).2 then none
        else some .iliegalData) := by
  induction is generalizing t lst with
  | nil => simp [entryLoop, ForceList.forceEntries, ← hlst, setForce_self]
  | cons i is ih =>
    have haddr : t.forceAddr kind i = s.forceAddr kind i := by rw [forceAddr, forceAddr, ht]
    have hvalue : t.forceValue kind i = s.forceValue kind i := by
      cases kind <;> simp only [forceValue, ht]
    have hentry : forceEntry kind search i t =
        match lst.forceEntry kind search (s.forceAddr kind i) (s.forceValue kind i) with
        | none => (t, .error .iliegalData)
        | some lst => (t.setForce kind lst.head, .ok false) := by
      simp only [forceEntry, ForceList.forceEntry, haddr, hvalue, hlst]
      split_ifs
      · rfl
      · cases mbSlaveConvertElementInfo kind (s.forceAddr kind i).toNat <;> rfl
    rw [entryLoop, hentry, map_cons, ForceList.forceEntries]
    cases lst.forceEntry kind search (s.forceAddr kind i) (s.forceValue kind i) with
    | none => simp [← hlst, setForce_self]
    | some lst' =>
      dsimp only
      rw [ih (t := t.setForce kind lst'.head) ht (force_setForce t kind _), setForce_setForce]

/-- Deleting an address from a counted list. -/
theorem unforceEntry_head {lst : ForceList} (h : lst.listLen.toNat = lst.head.length)
    (a : BitVec 16) :
    (lst.unforceEntry a).head = lst.head.eraseP (·.modbusAddr = a) ∧
      (lst.unforceEntry a).listLen.toNat = (lst.unforceEntry a).head.length := by
  unfold ForceList.unforceEntry
  split_ifs with hany
  · obtain ⟨e, he, hea⟩ := any_listed.mp hany
    have hpos : 0 < lst.head.length := length_pos_of_mem he
    have hlen : (lst.head.eraseP (·.modbusAddr = a)).length = lst.head.length - 1 :=
      length_eraseP_of_mem he (decide_eq_true hea)
    refine ⟨rfl, ?_⟩
    rw [hlen, BitVec.toNat_sub_of_le, h]
    · rfl
    · rw [le_def, h]
      exact hpos
  · refine ⟨?_, h⟩
    rw [eraseP_of_forall_not]
    intro e he hea
    exact hany (any_listed.mpr ⟨e, he, of_decide_eq_true hea⟩)

/-- Deleting addresses from a counted list, one after the other. -/
theorem foldl_unforceEntry (as : List (BitVec 16)) {lst : ForceList}
    (h : lst.listLen.toNat = lst.head.length) :
    (as.foldl ForceList.unforceEntry lst).head =
        as.foldl (fun es a => es.eraseP fun e => e.modbusAddr = a) lst.head ∧
      (as.foldl ForceList.unforceEntry lst).listLen.toNat =
        (as.foldl ForceList.unforceEntry lst).head.length := by
  induction as generalizing lst with
  | nil => exact ⟨rfl, h⟩
  | cons a as ih =>
    obtain ⟨hhead, hcounted⟩ := unforceEntry_head h a
    rw [foldl_cons, foldl_cons, ← hhead]
    exact ih hcounted

/-- Releasing addresses of a counted list deletes their elements. -/
theorem unforce_head (as : List (BitVec 16)) {lst : ForceList}
    (h : lst.listLen.toNat = lst.head.length) :
    (lst.unforce as).head =
      as.foldl (fun es a => es.eraseP fun e => e.modbusAddr = a) lst.head := by
  have hnil {lst : ForceList} (h : lst.listLen.toNat = lst.head.length) (hlen : lst.listLen = 0) :
      lst.head = [] := by
    rw [hlen] at h
    exact eq_nil_of_length_eq_zero h.symm
  have herase (as : List (BitVec 16)) :
      as.foldl (fun es a => es.eraseP fun e => e.modbusAddr = a) ([] : List ListedElement) =
        [] := by
    induction as with
    | nil => rfl
    | cons a as ih => exact ih
  unfold ForceList.unforce
  dsimp only
  by_cases hpos : 0 < lst.listLen
  · obtain ⟨hhead, hcounted⟩ := foldl_unforceEntry as h
    split_ifs with hzero
    · rw [← hhead, hnil hcounted hzero]
    · exact hhead
  · have hzero : lst.listLen = 0 := by
      exact toNat_inj.mp (Nat.eq_zero_of_not_pos hpos)
    rw [if_neg hpos, if_pos hzero, hnil h hzero, herase]

theorem setForce_force {kind : AddrKind} {lst : ForceList} (h : s.HasLists l) (k : AddrKind) :
    (s.setForce kind lst.head).force k = (update l kind lst k).head := by
  by_cases hk : k = kind
  · subst hk
    rw [force_setForce, update_self]
  · rw [update_of_ne hk, ← h.head k]
    exact update_of_ne hk _ _

/-- The answer after the loop over the entries. -/
theorem finished_force (h : s.HasLists l) (m : MsgPack) (kind : AddrKind) {x : ForceList × Bool}
    (ht : t = (finishList m id
      (s.setForce kind x.1.head, if x.2 then none else some .iliegalData)).thenRespond m) :
    (∀ k, t.force k = (update l kind x.1 k).head) ∧
      (x.2 = true → t.errorCode = s.errorCode) ∧ (¬ x.2 = true → t.errorCode ≠ none) := by
  obtain ⟨lst, all⟩ := x
  subst ht
  cases all with
  | true => exact ⟨setForce_force h, fun _ => rfl, fun hno => absurd rfl hno⟩
  | false =>
    refine ⟨fun k => ?_, fun hall => Bool.noConfusion hall, fun _ => ?_⟩
    · rw [← setForce_force h k]
      exact congrFun (mbSlaveErrorResp_force _ m _) k
    · exact (mbSlaveErrorResp_errorCode _ m _).symm ▸ some_ne_none _

theorem ctrlCase_forceLists (b : Board ω) (m : MsgPack) (h : s.HasLists l) {op : CtrlOp}
    {r : ForceRequest} (hr : s.forceRequest? op = some r) :
    (∀ kind, (s.ctrlCase b m (some op)).force kind = (l.step r kind).head) ∧
      (l.Accepts r → (s.ctrlCase b m (some op)).errorCode = s.errorCode) ∧
      (¬ l.Accepts r → (s.ctrlCase b m (some op)).errorCode ≠ none) := by
  cases op <;> simp only [forceRequest?, some_inj, reduceCtorEq] at hr
  case force kind =>
    subst hr
    have hcase : s.ctrlCase b m (some (.force kind)) = (s.force_ m kind).thenRespond m := by
      cases kind <;> rfl
    have hsearch : decide (s.force kind ≠ []) = decide (0 < (l kind).listLen) := by
      rw [decide_eq_decide, h.head, ← length_pos_iff, ← h.counted]
      rfl
    rw [hcase, force_, hsearch, entryLoop_force _ _ rfl (h.head kind)]
    exact finished_force h m kind rfl
  case unforce kind =>
    subst hr
    have hcase : s.ctrlCase b m (some (.unforce kind)) = (s.unforce kind).thenRespond m := by
      cases kind <;> rfl
    refine ⟨fun k => ?_, fun _ => ?_, fun hno => absurd trivial hno⟩
    · rw [hcase, ForceLists.step, ← setForce_force h, unforce_head _ (h.counted kind),
        ← h.head kind, unforceAddrs, foldl_map]
      rfl
    · rw [hcase]
      rfl
  case unforceAll =>
    subst hr
    exact ⟨fun _ => rfl, fun _ => rfl, fun hno => absurd trivial hno⟩

/-- A request that repeats nothing in an empty list keeps the lists and their lengths together. -/
theorem HasLists.step (b : Board ω) (m : MsgPack) (h : s.HasLists l) (hinv : l.Inv) {op : CtrlOp}
    {r : ForceRequest} (hr : s.forceRequest? op = some r) (hrep : ¬ l.Repeats r) :
    (s.ctrlCase b m (some op)).HasLists (l.step r) where
  head := (ctrlCase_forceLists b m h hr).1
  counted kind := (ForceLists.step_inv hinv hrep kind).counted

end Slave

end Kalyke
