-- SUMMARY: The list of the running compare instructions on high-speed counters.
import Kalyke.Highspeed.CounterList

/-!
# Compare Instructions

`DHSCS`, `DHSCR`, `DHSCI`, `DHSZ`, `DHST` and `DHSP` compare a high-speed counter at every pulse,
once they have been started under their serial number. At most six of them are to run at a time.
They are kept in a list linked through seven slots, of which one is to stay free. The check that
there is room lets a seventh one in.
-/

namespace Kalyke

open List Function

def maxInstructionNum : Nat := 6

/-- `DHS_type`. -/
inductive DhsType where
  | dhscs | dhscr | dhsz | dhst | dhsp | dhsci
deriving DecidableEq, Repr

/-- `hs_state_t`, without its links: the type and the fields that belong to it. -/
inductive DhsEntry where
  | dhscs (sNum : BitVec 8) (counterNum : BitVec 16) (elemType address : Nat)
    (compareNum : BitVec 32)
  | dhscr (sNum : BitVec 8) (counterNum : BitVec 16) (elemType address : Nat)
    (compareNum : BitVec 32)
  | dhsz (sNum : BitVec 8) (counterNum : BitVec 16) (elemType address : Nat)
    (compareNum1 compareNum2 : BitVec 32)
  | dhst (sNum : BitVec 8) (counterNum : BitVec 16) (curRecord recordNum : BitVec 8)
    (elemType address : Nat)
  | dhsp (sNum : BitVec 8) (counterNum : BitVec 16) (curRecord recordNum : BitVec 8)
    (elemType address : Nat)
  | dhsci (sNum : BitVec 8) (counterNum : BitVec 16) (intNum : BitVec 8) (compareNum : BitVec 32)
deriving DecidableEq, Repr

/-- `getCurSerialNum`. -/
def DhsEntry.serialNum : DhsEntry → BitVec 8
  | dhscs sNum .. | dhscr sNum .. | dhsz sNum .. => sNum
  | dhst sNum .. | dhsp sNum .. | dhsci sNum .. => sNum

/-- `gHS_DHSx`. -/
structure DhsTable where
  ring : SlotRing DhsEntry
  dhsNumbers : Nat

/-- The part of `init_high_speed` on compare instructions. -/
def DhsTable.init : DhsTable where
  ring := ⟨fun _ => .dhscs 0 0 0 0 0, fun i => if i < maxInstructionNum then i + 1 else 0, 0, 0⟩
  dhsNumbers := 0

/-- What `startDHSx` enters for an instruction, read from its operands. -/
def dhsEntry (sNum : BitVec 8) (counterNum : BitVec 16) (i : BodyInput) : DhsType → DhsEntry
  | .dhscs => .dhscs sNum counterNum (i.ucode.getPU8 (i.pc + 15)) (i.ucode.getPU16 (i.pc + 16))
      (i.dwordOr 2 2020)
  | .dhscr => .dhscr sNum counterNum (i.ucode.getPU8 (i.pc + 15)) (i.ucode.getPU16 (i.pc + 16))
      (i.dwordOr 2 2020)
  | .dhsci => .dhsci sNum counterNum ((i.wordOr 14 20).setWidth 8) (i.dwordOr 2 2020)
  | .dhsz => .dhsz sNum counterNum (i.ucode.getPU8 (i.pc + 21)) (i.ucode.getPU16 (i.pc + 22))
      (i.dwordOr 2 2020) (i.dwordOr 8 (i.dwordOr 2 2020))
  | .dhst => .dhst sNum counterNum 0 ((i.wordOr 8 0).setWidth 8) (i.ucode.getPU8 (i.pc + 3))
      (i.ucode.getPU32 (i.pc + 4))
  | .dhsp => .dhsp sNum counterNum 0 ((i.wordOr 8 0).setWidth 8) (i.ucode.getPU8 (i.pc + 3))
      (i.ucode.getPU32 (i.pc + 4))

theorem serialNum_dhsEntry (sNum : BitVec 8) (counterNum : BitVec 16) (i : BodyInput)
    (kind : DhsType) :
    (dhsEntry sNum counterNum i kind).serialNum = sNum := by cases kind <;> rfl

/-- The area of a table of records, by the type byte of its operand. -/
def recordArea (elemType : Nat) : Option WordArea :=
  match AddrType.ofCode elemType with
  | some .d => some (.elem .D)
  | some .r => some (.elem .R)
  | _ => none

/-- Two words are copied from an area to `SD` elements from a number on. -/
def showRecord (sd : Nat) (area : WordArea) (address : Nat) (s : Store) : Store :=
  (s.setWord (.elem .SD) sd (s.getWord area address)).setWord (.elem .SD) (sd + 1)
    (s.getWord area (address + 1))

/-- The elements that `startDHSx` sets: for the instructions with a table, the number of the record
and the value that is compared first. -/
def showStart (e : DhsEntry) (s : Store) : Store :=
  match e with
  | .dhst _ _ _ _ elemType address =>
    let s := s.setWord (.elem .SD) 184 1
    match recordArea elemType with
    | some area => showRecord 182 area address s
    | none => s
  | .dhsp _ _ _ _ elemType address =>
    let s := s.setWord (.elem .SD) 184 1
    match recordArea elemType with
    | some area => showRecord 180 area address s
    | none => s
  | _ => s

namespace DhsTable

/-- The loops over the entries, with as many steps as there are slots. -/
def find (t : DhsTable) (sNum : BitVec 8) : Option SlotRing.Found :=
  t.ring.search (fun e => e.serialNum == sNum) (maxInstructionNum + 2) t.ring.head t.ring.head

/-- `isDHSxRunning`; none if it does not return. -/
def isDHSxRunning (t : DhsTable) (sNum : BitVec 8) : Option Bool :=
  (t.find sNum).map fun
    | .at _ _ => true
    | .nowhere => false

def stopDHSx (t : DhsTable) (sNum : BitVec 8) : Option DhsTable :=
  match t.find sNum with
  | none => none
  | some .nowhere => some t
  | some (.at pre idx) => some ⟨t.ring.remove pre idx, t.dhsNumbers - 1⟩

def startDHSx (t : DhsTable) (sNum : BitVec 8) (counterNum : BitVec 16) (i : BodyInput)
    (kind : DhsType) : Option (DhsTable × Store) :=
  if maxInstructionNum < t.dhsNumbers then some (t, i.store)
  else
    match t.find sNum with
    | none => none
    | some (.at _ _) => some (t, i.store)
    | some .nowhere =>
      let e := dhsEntry sNum counterNum i kind
      some (⟨t.ring.append e, t.dhsNumbers + 1⟩, showStart e i.store)

end DhsTable

/-! ## What Is to Run -/

/-- A call of `startDHSx` or `stopDHSx`. -/
inductive DhsCall where
  | start (sNum : BitVec 8) (counterNum : BitVec 16) (i : BodyInput) (kind : DhsType)
  | stop (sNum : BitVec 8)

/-- The instructions that are to run: for a serial number the entry of the last start that succeeded
since it was last stopped, and how many there are. -/
structure DhsSpec where
  running : BitVec 8 → Option DhsEntry
  number : Nat

namespace DhsSpec

/-- None runs. -/
def init : DhsSpec := ⟨fun _ => none, 0⟩

/-- A start is refused when six instructions run. -/
def Refuses (p : DhsSpec) (sNum : BitVec 8) : Prop :=
  p.running sNum = none ∧ p.number = maxInstructionNum

instance (p : DhsSpec) (sNum : BitVec 8) : Decidable (p.Refuses sNum) :=
  inferInstanceAs (Decidable (_ ∧ _))

/-- The instructions that are to run after a call. -/
def next (p : DhsSpec) : DhsCall → DhsSpec
  | .start sNum counterNum i kind =>
    if (p.running sNum).isSome ∨ p.Refuses sNum then p
    else ⟨update p.running sNum (some (dhsEntry sNum counterNum i kind)), p.number + 1⟩
  | .stop sNum =>
    if (p.running sNum).isSome then ⟨update p.running sNum none, p.number - 1⟩ else p

end DhsSpec

/-- The table and the instructions that are to run. -/
structure DhsState where
  table : DhsTable
  spec : DhsSpec

/-- The start of a run. -/
def DhsState.init : DhsState := ⟨.init, .init⟩

/-- The table after a call; none if the call does not return. -/
def DhsTable.call (t : DhsTable) : DhsCall → Option DhsTable
  | .start sNum counterNum i kind => (t.startDHSx sNum counterNum i kind).map Prod.fst
  | .stop sNum => t.stopDHSx sNum

def DhsState.next (s : DhsState) (x : DhsCall) : DhsState :=
  ⟨(s.table.call x).getD s.table, s.spec.next x⟩

/-- The table has exactly the instructions that are to run: `isDHSxRunning` tells them, each has one
slot with its own entry, and there are as many as are counted, and not more than six. -/
def DhsState.Agrees (s : DhsState) : Prop :=
  ∃ busy, LinkPath s.table.ring.next s.table.ring.head busy s.table.ring.tail ∧
    s.table.ring.tail ∉ busy ∧ busy.Nodup ∧
    s.table.dhsNumbers = busy.length ∧ busy.length ≤ maxInstructionNum ∧
    busy.length = s.spec.number ∧
    ∀ sNum, s.table.isDHSxRunning sNum = some (s.spec.running sNum).isSome ∧
      ∀ e, s.spec.running sNum = some e →
        ∃ k ∈ busy, s.table.ring.slot k = e ∧
          ∀ j ∈ busy, (s.table.ring.slot j).serialNum = sNum → j = k

def DhsCall.Right (s : DhsState) (x : DhsCall) : Prop :=
  (s.table.call x).isSome = true ∧ (s.next x).Agrees ∧
    ∀ sNum counterNum i kind, x = .start sNum counterNum i kind → s.spec.Refuses sNum →
      (s.next x).table = s.table

/-- A start of an instruction that does not run finds a free slot behind the one it takes. -/
def DhsCall.HasRoom (s : DhsState) (x : DhsCall) : Prop :=
  ∀ sNum counterNum i kind, x = .start sNum counterNum i kind →
    s.spec.running sNum = none → s.table.ring.next s.table.ring.tail ≠ s.table.ring.head

/-! ## The List -/

/-- The slots in use and the free ones, with what holds of them in every run with room. -/
structure DhsState.Inv (s : DhsState) (busy free : List Nat) : Prop where
  ring : s.table.ring.IsRing busy free
  slots : busy.length + free.length ≤ maxInstructionNum + 1
  serials : ((s.table.ring.values busy).map DhsEntry.serialNum).Nodup
  running : ∀ sNum e, s.spec.running sNum = some e ↔
    e ∈ s.table.ring.values busy ∧ e.serialNum = sNum
  counted : s.table.dhsNumbers = busy.length
  number : s.spec.number = busy.length

namespace DhsState.Inv

variable {s : DhsState} {busy free : List Nat} {sNum : BitVec 8}

theorem init : DhsState.init.Inv [] (range (maxInstructionNum + 1)) where
  ring := ⟨rfl, by simp [LinkPath, DhsState.init, DhsTable.init, maxInstructionNum, range,
    range.loop], by decide, by decide⟩
  slots := by simp
  serials := nodup_nil
  running sNum e := by simp [DhsState.init, DhsSpec.init, SlotRing.values]
  counted := rfl
  number := rfl

theorem length_lt (h : s.Inv busy free) : busy.length < maxInstructionNum + 2 := by
  have := h.slots
  omega

theorem length_le (h : s.Inv busy free) : busy.length ≤ maxInstructionNum := by
  have hslots := h.slots
  have hfree := length_pos_of_ne_nil h.ring.free_ne_nil
  omega

theorem mem_serials_iff (h : s.Inv busy free) :
    sNum ∈ (s.table.ring.values busy).map DhsEntry.serialNum ↔
      (s.spec.running sNum).isSome = true := by
  rw [Option.isSome_iff_exists, mem_map]
  exact exists_congr fun e => (h.running sNum e).symm

theorem find_running (h : s.Inv busy free) (hrun : (s.spec.running sNum).isSome = true) :
    ∃ pre k post, busy = pre ++ k :: post ∧ (s.table.ring.slot k).serialNum = sNum ∧
      s.table.find sNum = some (.at (pre.getLastD s.table.ring.head) k) :=
  h.ring.search_key h.serials (h.mem_serials_iff.mpr hrun) h.length_lt

theorem find_stopped (h : s.Inv busy free) (hrun : s.spec.running sNum = none) :
    s.table.find sNum = some .nowhere := by
  refine h.ring.search_key_nowhere (fun hmem => ?_) h.length_lt
  have hsome := h.mem_serials_iff.mp hmem
  rw [hrun] at hsome
  cases hsome

theorem agrees (h : s.Inv busy free) : s.Agrees := by
  refine ⟨busy, h.ring.busy_path, h.ring.tail_notMem, (nodup_append.mp h.ring.nodup).1,
    h.counted, h.length_le, h.number.symm, fun sNum => ⟨?_, fun e he => ?_⟩⟩
  · cases hrun : s.spec.running sNum with
    | none => rw [DhsTable.isDHSxRunning, h.find_stopped hrun]; rfl
    | some e =>
      obtain ⟨pre, k, post, -, -, hfind⟩ := h.find_running (by rw [hrun]; rfl)
      rw [DhsTable.isDHSxRunning, hfind]
      rfl
  · obtain ⟨hmem, rfl⟩ := (h.running sNum e).mp he
    obtain ⟨k, hk, rfl⟩ := mem_map.mp hmem
    refine ⟨k, hk, rfl, fun j hj hsame => ?_⟩
    have hserials := h.serials
    rw [SlotRing.values, map_map] at hserials
    exact inj_on_of_nodup_map hserials hj hk hsame

/-- A call that leaves everything as it is. -/
theorem right_of_idle {x : DhsCall} (h : s.Inv busy free) (hcall : s.table.call x = some s.table)
    (hspec : s.spec.next x = s.spec) : x.Right s ∧ ∃ busy free, (s.next x).Inv busy free := by
  have hnext : s.next x = s := by rw [DhsState.next, hcall, hspec]; rfl
  refine ⟨⟨by rw [hcall]; rfl, ?_, fun _ _ _ _ _ _ => ?_⟩, busy, free, ?_⟩
  · rw [hnext]
    exact h.agrees
  · rw [hnext]
  · rw [hnext]
    exact h

/-- The instruction is stopped. Its slot may be lost, but the list agrees. -/
theorem stop (h : s.Inv busy free) (hrun : (s.spec.running sNum).isSome = true) :
    (s.table.call (.stop sNum)).isSome = true ∧
      ∃ busy free, (s.next (.stop sNum)).Inv busy free := by
  obtain ⟨pre, k, post, rfl, hserial, hfind⟩ := h.find_running hrun
  obtain ⟨hring, hslot⟩ := h.ring.remove_at
  have hcall : s.table.call (.stop sNum) =
      some ⟨s.table.ring.remove (pre.getLastD s.table.ring.head) k, s.table.dhsNumbers - 1⟩ := by
    rw [DhsTable.call, DhsTable.stopDHSx, hfind]
  have hnext : s.next (.stop sNum) =
      ⟨⟨s.table.ring.remove (pre.getLastD s.table.ring.head) k, s.table.dhsNumbers - 1⟩,
        ⟨update s.spec.running sNum none, s.spec.number - 1⟩⟩ := by
    rw [DhsState.next, hcall, DhsSpec.next, if_pos hrun]
    rfl
  have hcounted := h.counted
  have hnumber := h.number
  have hslots := h.slots
  have hserials := h.serials
  have hperm : (pre ++ k :: post).Perm (k :: (pre ++ post)) := perm_middle
  have hvalues : ∀ busy, (s.table.ring.remove (pre.getLastD s.table.ring.head) k).values busy =
      s.table.ring.values busy := fun busy => by rw [SlotRing.values, SlotRing.values, hslot]
  rw [SlotRing.values, map_map] at hserials
  have hserials' := (hperm.map _).nodup_iff.mp hserials
  rw [map_cons, nodup_cons] at hserials'
  refine ⟨by rw [hcall]; rfl, pre ++ post, if pre = [] then free ++ [k] else free, ?_⟩
  rw [hnext]
  refine ⟨hring, ?_, ?_, ?_, ?_, ?_⟩
  · simp only [length_append, length_cons] at hslots ⊢
    split
    · simp only [length_append, length_singleton]
      omega
    · omega
  · dsimp only
    rw [hvalues, SlotRing.values, map_map]
    exact hserials'.2
  · intro sNum' e
    dsimp only
    rw [hvalues]
    by_cases hs : sNum' = sNum
    · subst hs
      refine iff_of_false (by simp) ?_
      rintro ⟨hmem, he⟩
      obtain ⟨j, hj, rfl⟩ := mem_map.mp hmem
      exact hserials'.1 (mem_map.mpr ⟨j, hj, he.trans hserial.symm⟩)
    · rw [update_of_ne hs, h.running]
      refine and_congr_left fun he => ?_
      rw [SlotRing.values, (hperm.map _).mem_iff, map_cons, mem_cons]
      refine or_iff_right fun heq => hs ?_
      rw [← he, heq, hserial]
  · simp only [length_append, length_cons] at hcounted ⊢
    omega
  · simp only [length_append, length_cons] at hnumber ⊢
    omega

/-- An instruction that does not run is started. -/
theorem start_call (h : s.Inv busy free) (hrun : s.spec.running sNum = none)
    (counterNum : BitVec 16) (i : BodyInput) (kind : DhsType) :
    s.table.call (.start sNum counterNum i kind) =
      some ⟨s.table.ring.append (dhsEntry sNum counterNum i kind), s.table.dhsNumbers + 1⟩ := by
  have hle := h.length_le
  have hcounted := h.counted
  rw [DhsTable.call, DhsTable.startDHSx, if_neg (by omega), h.find_stopped hrun]
  rfl

theorem start (h : s.Inv busy free) (hrun : s.spec.running sNum = none)
    (hroom : s.table.ring.next s.table.ring.tail ≠ s.table.ring.head)
    (counterNum : BitVec 16) (i : BodyInput) (kind : DhsType) :
    ¬ s.spec.Refuses sNum ∧
      ∃ busy free, (s.next (.start sNum counterNum i kind)).Inv busy free := by
  have hslots := h.slots
  have hcounted := h.counted
  have hnumber := h.number
  have hserials := h.serials
  have hfull := h.ring.next_tail_eq_iff.not.mp hroom
  have hvalues := h.ring.values_append (x := dhsEntry sNum counterNum i kind)
  have hrunning := h.running
  have hcall := h.start_call hrun counterNum i kind
  have hnew : sNum ∈ (s.table.ring.values busy).map DhsEntry.serialNum ↔ _ := h.mem_serials_iff
  obtain ⟨a, ha⟩ := exists_cons_of_ne_nil h.ring.free_ne_nil
  obtain ⟨rest, rfl⟩ := ha
  have hring := h.ring
  obtain ⟨rfl, -⟩ := h.ring.free_path
  obtain ⟨b, rest, rfl⟩ : ∃ b bs, rest = b :: bs :=
    exists_cons_of_ne_nil fun hnil => hfull (by rw [hnil])
  have hrefuses : ¬ s.spec.Refuses sNum := by
    rintro ⟨-, hsix⟩
    simp only [length_cons] at hslots
    omega
  have hnext : s.next (.start sNum counterNum i kind) =
      ⟨⟨s.table.ring.append (dhsEntry sNum counterNum i kind), s.table.dhsNumbers + 1⟩,
        ⟨update s.spec.running sNum (some (dhsEntry sNum counterNum i kind)),
          s.spec.number + 1⟩⟩ := by
    rw [DhsState.next, hcall, DhsSpec.next, if_neg]
    · rfl
    · rintro (hsome | hno)
      · rw [hrun] at hsome
        cases hsome
      · exact hrefuses hno
  refine ⟨hrefuses, busy ++ [s.table.ring.tail], b :: rest, ?_⟩
  rw [hnext]
  refine ⟨hring.append_room, ?_, ?_, ?_, ?_, ?_⟩
  · simp only [length_append, length_cons, length_nil] at hslots ⊢
    omega
  · dsimp only
    rw [hvalues, map_append, nodup_append]
    refine ⟨hserials, nodup_singleton _, ?_⟩
    rintro c hc d hd rfl
    rw [map_singleton, mem_singleton, serialNum_dhsEntry] at hd
    rw [hd, hnew, hrun] at hc
    cases hc
  · intro sNum' e
    dsimp only
    rw [hvalues, mem_append, mem_singleton]
    by_cases hs : sNum' = sNum
    · subst hs
      rw [update_self]
      constructor
      · intro he
        obtain rfl := Option.some.inj he
        exact ⟨.inr rfl, serialNum_dhsEntry ..⟩
      · rintro ⟨hmem | rfl, he⟩
        · rw [(hrunning sNum' e).mpr ⟨hmem, he⟩] at hrun
          cases hrun
        · rfl
    · rw [update_of_ne hs, hrunning]
      refine and_congr_left fun he => ?_
      refine (or_iff_left fun heq => hs ?_).symm
      rw [← he, heq, serialNum_dhsEntry]
  · dsimp only
    rw [length_append, hcounted]
    rfl
  · dsimp only
    rw [length_append, hnumber]
    rfl

/-- Without room behind it, a start empties the list. -/
theorem start_full (h : s.Inv busy free) (hrun : s.spec.running sNum = none)
    (hfull : s.table.ring.next s.table.ring.tail = s.table.ring.head)
    (counterNum : BitVec 16) (i : BodyInput) (kind : DhsType) :
    ¬ DhsCall.Right s (.start sNum counterNum i kind) := by
  have hcall := h.start_call hrun counterNum i kind
  have htable : (s.next (.start sNum counterNum i kind)).table =
      ⟨s.table.ring.append (dhsEntry sNum counterNum i kind), s.table.dhsNumbers + 1⟩ := by
    rw [DhsState.next, hcall]
    rfl
  have hring := h.ring
  rw [h.ring.next_tail_eq_iff.mp hfull] at hring
  have hempty := hring.append_full (x := dhsEntry sNum counterNum i kind)
  rintro ⟨-, ⟨busy', hpath, hnot, -, hcounted, -⟩, -⟩
  rw [htable] at hpath hnot hcounted
  have hnil : busy' = [] := hpath.unique hempty.busy_path hnot (by simp)
  rw [hnil] at hcounted
  cases hcounted

end DhsState.Inv

/-! ## Runs -/

section

variable {s : DhsState} {x : DhsCall} {busy free : List Nat}

theorem DhsState.Inv.next (h : s.Inv busy free) (hx : x.HasRoom s) :
    x.Right s ∧ ∃ busy free, (s.next x).Inv busy free := by
  cases x with
  | start sNum counterNum i kind =>
    cases hrun : s.spec.running sNum with
    | none =>
      obtain ⟨hno, busy', free', hinv⟩ :=
        h.start hrun (hx sNum counterNum i kind rfl hrun) counterNum i kind
      refine ⟨⟨by rw [h.start_call hrun counterNum i kind]; rfl, hinv.agrees, ?_⟩, busy', free', hinv⟩
      intro sNum' _ _ _ heq hrefused
      obtain ⟨rfl, -⟩ := DhsCall.start.inj heq
      exact absurd hrefused hno
    | some e =>
      obtain ⟨pre, k, post, -, -, hfind⟩ := h.find_running (by rw [hrun]; rfl)
      refine h.right_of_idle ?_ ?_
      · rw [DhsTable.call, DhsTable.startDHSx, hfind]
        split <;> rfl
      · rw [DhsSpec.next, if_pos (.inl (by rw [hrun]; rfl))]
  | stop sNum =>
    cases hrun : s.spec.running sNum with
    | none =>
      refine h.right_of_idle ?_ ?_
      · rw [DhsTable.call, DhsTable.stopDHSx, h.find_stopped hrun]
      · rw [DhsSpec.next, if_neg (by rw [hrun]; simp)]
    | some e =>
      obtain ⟨hsome, busy', free', hinv⟩ := h.stop (by rw [hrun]; rfl)
      exact ⟨⟨hsome, hinv.agrees, fun _ _ _ _ heq => by cases heq⟩, busy', free', hinv⟩

/-- While there has been room, a call goes right just if there is room for it. -/
theorem DhsState.Inv.right_iff (h : s.Inv busy free) : x.Right s ↔ x.HasRoom s := by
  refine ⟨fun hright => ?_, fun hroom => (h.next hroom).1⟩
  rintro sNum counterNum i kind rfl hrun hfull
  exact h.start_full hrun hfull counterNum i kind hright

end

/-- In a run from `init_high_speed` on, the table has the instructions that are to run after every
call just if no start comes while there is a single free slot. -/
theorem dhsTable_agrees_iff (xs : List DhsCall) :
    Each DhsState.next (fun s x => x.Right s) .init xs ↔
      Each DhsState.next (fun s x => x.HasRoom s) .init xs := by
  refine Each.iff_of_invariant (I := fun s => ∃ busy free, s.Inv busy free)
    (L := fun _ _ => True) ⟨_, _, DhsState.Inv.init⟩ (fun _ _ _ _ => trivial) ?_ ?_
  · rintro s x ⟨busy, free, h⟩ -
    exact h.right_iff
  · rintro s x ⟨busy, free, h⟩ - hx
    exact (h.next hx).2

/-- A start of `DHSCS` under a serial number. -/
def dhscsStart (sNum : BitVec 8) : DhsCall :=
  .start sNum 236 ⟨[], 0, 0, 0, 1, ⟨false, 0, fun _ => 0⟩, .off⟩ .dhscs

/-- With six instructions running, a seventh is not refused, and none runs any more. -/
theorem seventh_start_empties : ¬ ∀ xs : List DhsCall,
    Each DhsState.next (fun s x => x.Right s) .init xs := by
  intro h
  have hright := h ((map dhscsStart [0, 1, 2, 3, 4, 5]) ++ [dhscsStart 6])
    (map dhscsStart [0, 1, 2, 3, 4, 5]) (dhscsStart 6) [] rfl
  obtain ⟨-, ⟨_, -, -, -, -, -, -, hagrees⟩, -⟩ := hright
  have hrunning := (hagrees 0).1
  revert hrunning
  decide

end Kalyke
