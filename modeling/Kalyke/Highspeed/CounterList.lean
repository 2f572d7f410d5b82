-- SUMMARY: The list of the high-speed counters that are started, as `HCNT` keeps it.
import Kalyke.Exec.DataProcessing
import Kalyke.Lib.Runs
import Kalyke.Lib.SlotRing
import Mathlib.Data.List.Perm.Subperm

/-!
# High-Speed Counters

`HCNT` starts a high-speed counter while its power flow is on and stops it when it goes off. The
counters that are started are kept twice: in an array by their numbers, and in a list linked through
30 slots. A counter is appended to the list in the first free slot. A counter that is not the first
one is unlinked in the middle, and the slot it was in is never linked again.
-/

namespace Kalyke

open List Function

/-- What a variable holds after `get_dword` has been called on it: a failure leaves it as it was, or
with the bits read so far. -/
def BodyInput.dwordOr (i : BodyInput) (q : Nat) (before : BitVec 32) : BitVec 32 :=
  (getDword i.ucode (i.pc + q) i.store i.level 0 1).2.headD before

def BodyInput.wordOr (i : BodyInput) (q : Nat) (before : BitVec 16) : BitVec 16 :=
  (getWord i.ucode (i.pc + q) i.store i.level 0 1).2.headD before

def supportedCounters : List Nat :=
  [236, 237, 238, 239, 240, 241, 244, 245, 246, 247, 248, 249, 250, 252, 253, 254, 255, 256, 257,
   258, 260, 261, 262, 263]

def isSupportThisCounter (counterNum : Int) : Bool :=
  0 ≤ counterNum && supportedCounters.contains counterNum.toNat

def hcntMaxNumber : Nat := 30

/-- `hs_hcnt_state_t`, without its links. -/
structure HcntEntry where
  counterNum : Nat
  compareNum : BitVec 32
deriving DecidableEq, Repr

/-- `gHCNT`, by number from `C236` on; `gHCNT2`, the list; and the mark `mbv_Started` of the
counters. -/
structure HcntState where
  hcnts : Nat → HcntEntry
  hcntNumbers : Nat
  ring : SlotRing HcntEntry
  cntNumbers : Nat
  started : Nat → Bool

/-- The part of `init_high_speed` on counters, which are all stopped then. -/
def HcntState.init : HcntState where
  hcnts := fun _ => ⟨0, 0⟩
  hcntNumbers := 0
  ring := ⟨fun _ => ⟨0, 0⟩, fun i => if i < hcntMaxNumber - 1 then i + 1 else 0, 0, 0⟩
  cntNumbers := 0
  started := fun _ => false

namespace HcntState

/-- The loops of `addCounter` and `delCounter`, with as many steps as there are slots. -/
def find (s : HcntState) (counterNum : Nat) : Option SlotRing.Found :=
  s.ring.search (fun e => e.counterNum == counterNum) (hcntMaxNumber + 1) s.ring.head s.ring.head

/-- What `addCounter` does to `gHCNT`. -/
def enter (s : HcntState) (counterNum : Nat) (cNum : BitVec 32) : HcntState :=
  if (s.hcnts (counterNum - 236)).counterNum = 0 then
    { s with
      hcnts := update s.hcnts (counterNum - 236) ⟨counterNum, cNum⟩
      hcntNumbers := s.hcntNumbers + 1 }
  else s

/-- `addCounter`; none if it does not return. -/
def addCounter (s : HcntState) (counterNum : Nat) (cNum : BitVec 32) : Option HcntState :=
  let s := s.enter counterNum cNum
  if hcntMaxNumber - 1 ≤ s.cntNumbers then some s
  else
    match s.find counterNum with
    | none => none
    | some (.at _ _) => some s
    | some .nowhere =>
      some { s with ring := s.ring.append ⟨counterNum, cNum⟩, cntNumbers := s.cntNumbers + 1 }

/-- What `delCounter` does to `gHCNT`. -/
def leave (s : HcntState) (counterNum : Nat) : HcntState :=
  if (s.hcnts (counterNum - 236)).counterNum ≠ 0 then
    { s with
      hcnts := update s.hcnts (counterNum - 236)
        { s.hcnts (counterNum - 236) with counterNum := 0 }
      hcntNumbers := s.hcntNumbers - 1 }
  else s

def delCounter (s : HcntState) (counterNum : Nat) : Option HcntState :=
  let s := s.leave counterNum
  match s.find counterNum with
  | none => none
  | some .nowhere => some s
  | some (.at pre idx) =>
    some { s with ring := s.ring.remove pre idx, cntNumbers := s.cntNumbers - 1 }

/-- `SET_C32_STARTED` and `SET_C32_STOP`. -/
def setStarted (s : HcntState) (counterNum : Nat) (b : Bool) : HcntState :=
  { s with started := update s.started counterNum b }

end HcntState

/-- A call of `HCNT`: what it is run on, the levels of the inputs `X6` and `X7`, and what the
compare value holds if it cannot be read. -/
structure HcntCall where
  i : BodyInput
  x6 : Bool
  x7 : Bool
  stale : BitVec 32

namespace HcntCall

/-- The operand that names the counter. -/
def counterNum (x : HcntCall) : Int := (BitVec.ofNat 32 (x.i.ucode.getPU32 (x.i.pc + 4))).toInt

/-- The compare value. -/
def cmpValue (x : HcntCall) : BitVec 32 := x.i.dwordOr 8 x.stale

/-- The input that starts a counter is on; counters without one start at once. -/
def enabled (x : HcntCall) (counterNum : Nat) : Bool :=
  if [247, 255, 263].contains counterNum then x.x7
  else if [246, 254, 262].contains counterNum then x.x6
  else true

end HcntCall

/-- `run_ci_hcnt_ins`: what it returns, and the state; none if it does not return. -/
def runCiHcntIns (x : HcntCall) (s : HcntState) : Option (Except PlcErr Unit × HcntState) :=
  if isSupportThisCounter x.counterNum = false then some (.error .operands, s)
  else
    let c := x.counterNum.toNat
    if getPowerFlow x.i.inPF = false then
      if s.started c then ((s.setStarted c false).delCounter c).map fun s' => (.ok (), s')
      else some (.ok (), s)
    else if s.started c = false ∧ x.enabled c = true then
      ((s.setStarted c true).addCounter c x.cmpValue).map fun s' => (.ok (), s')
    else some (.ok (), s)

/-! ## The List -/

/-- The slots from the head on, up to the tail. -/
def HcntState.Listed (s : HcntState) (busy : List Nat) : Prop :=
  LinkPath s.ring.next s.ring.head busy s.ring.tail ∧ s.ring.tail ∉ busy

/-- The numbers in some slots. -/
def HcntState.names (s : HcntState) (busy : List Nat) : List Nat :=
  (s.ring.values busy).map HcntEntry.counterNum

/-- The list visits exactly the counters that are started, each once, its length is counted, and all
slots are on the ring. -/
def HcntState.VisitsStarted (s : HcntState) : Prop :=
  ∃ busy, s.Listed busy ∧ busy.Nodup ∧ (s.names busy).Nodup ∧
    (∀ c, c ∈ s.names busy ↔ s.started c = true) ∧ busy.length = s.cntNumbers ∧
    ∀ k < hcntMaxNumber, ∃ n, s.ring.next^[n] s.ring.head = k

/-- The slots in use and the free ones: the list has the counters that are started, each once. -/
structure HcntState.Lists (s : HcntState) (busy free : List Nat) : Prop where
  ring : s.ring.IsRing busy free
  names : (s.names busy).Nodup
  started : ∀ c, c ∈ s.names busy ↔ s.started c = true
  supported : ∀ c ∈ s.names busy, c ∈ supportedCounters
  count : busy.length = s.cntNumbers

/-- The slots in use and the free ones, with what holds of them as long as no slot has been lost. -/
structure HcntState.Inv (s : HcntState) (busy free : List Nat) : Prop where
  ring : s.ring.IsRing busy free
  all : ∀ k, k ∈ busy ++ free ↔ k < hcntMaxNumber
  names : (s.names busy).Nodup
  started : ∀ c, c ∈ s.names busy ↔ s.started c = true
  supported : ∀ c ∈ s.names busy, c ∈ supportedCounters
  count : busy.length = s.cntNumbers

namespace HcntState.Lists

variable {s : HcntState} {busy free : List Nat} {c : Nat} {v : BitVec 32}

theorem length_le (h : s.Lists busy free) : busy.length ≤ 24 := by
  have hle := (List.Nodup.subperm h.names h.supported).length_le
  simpa [HcntState.names, SlotRing.values, supportedCounters] using hle

theorem find_of_started (h : s.Lists busy free) (hc : s.started c = true) :
    ∃ pre k post, busy = pre ++ k :: post ∧ (s.ring.slot k).counterNum = c ∧
      s.find c = some (.at (pre.getLastD s.ring.head) k) := by
  have hlen := h.length_le
  have hmax : hcntMaxNumber = 30 := rfl
  exact h.ring.search_key h.names ((h.started c).mpr hc) (by omega)

theorem find_of_stopped (h : s.Lists busy free) (hc : s.started c = false) :
    s.find c = some .nowhere := by
  have hlen := h.length_le
  have hmax : hcntMaxNumber = 30 := rfl
  refine h.ring.search_key_nowhere (fun hmem => ?_) (by omega)
  rw [(h.started c).mp hmem] at hc
  cases hc

theorem addCounter {i j : Nat} {rest : List Nat} (h : s.Lists busy (i :: j :: rest))
    (hc : s.started c = false) (hs : c ∈ supportedCounters) :
    ∃ s', (s.setStarted c true).addCounter c v = some s' ∧ s'.Lists (busy ++ [i]) (j :: rest) := by
  obtain ⟨s₁, hs₁⟩ : ∃ s₁, (s.setStarted c true).enter c v = s₁ := ⟨_, rfl⟩
  have hsame : s₁.ring = s.ring ∧ s₁.cntNumbers = s.cntNumbers ∧
      s₁.started = update s.started c true := by
    rw [← hs₁, HcntState.enter]
    split <;> exact ⟨rfl, rfl, rfl⟩
  have hfind : s₁.find c = some .nowhere := by
    rw [HcntState.find, hsame.1]
    exact h.find_of_stopped hc
  have hlen := h.length_le
  have hmax : hcntMaxNumber = 30 := rfl
  have hcount := h.count
  obtain ⟨rfl, -⟩ := h.ring.free_path
  have hnames : HcntState.names
      { s₁ with ring := s₁.ring.append ⟨c, v⟩, cntNumbers := s₁.cntNumbers + 1 }
      (busy ++ [s.ring.tail]) = s.names busy ++ [c] := by
    rw [HcntState.names]
    rw [hsame.1, h.ring.values_append, map_append]
    rfl
  refine ⟨{ s₁ with ring := s₁.ring.append ⟨c, v⟩, cntNumbers := s₁.cntNumbers + 1 }, ?_, ?_, ?_,
    fun d => ?_, fun d hd => ?_, ?_⟩
  · rw [HcntState.addCounter, hs₁]
    rw [if_neg (by rw [hsame.2.1]; omega), hfind]
  · dsimp only
    rw [hsame.1]
    exact h.ring.append_room
  · rw [hnames]
    refine nodup_append.mpr ⟨h.names, nodup_singleton c, ?_⟩
    rintro d hd _ hc' rfl
    rw [mem_singleton] at hc'
    rw [hc', h.started] at hd
    rw [hd] at hc
    cases hc
  · rw [hnames]
    rw [hsame.2.2, mem_append, h.started]
    by_cases hd : d = c
    · simp [hd]
    · simp [hd]
  · rw [hnames] at hd
    rcases mem_append.mp hd with hd | hd
    · exact h.supported d hd
    · exact mem_singleton.mp hd ▸ hs
  · simp [hsame.2.1, hcount]
/-- What is left in the list when a counter is stopped. -/
theorem delCounter (h : s.Lists busy free) (hc : s.started c = true) :
    ∃ s' pre k post, busy = pre ++ k :: post ∧ (s.ring.slot k).counterNum = c ∧
      (s.setStarted c false).delCounter c = some s' ∧
      s'.Lists (pre ++ post) (if pre = [] then free ++ [k] else free) := by
  obtain ⟨pre, k, post, rfl, hname, hfind⟩ := h.find_of_started hc
  obtain ⟨s₁, hs₁⟩ : ∃ s₁, (s.setStarted c false).leave c = s₁ := ⟨_, rfl⟩
  have hsame : s₁.ring = s.ring ∧ s₁.cntNumbers = s.cntNumbers ∧
      s₁.started = update s.started c false := by
    rw [← hs₁, HcntState.leave]
    split <;> exact ⟨rfl, rfl, rfl⟩
  have hfind₁ : s₁.find c = s.find c := by rw [HcntState.find, HcntState.find, hsame.1]
  obtain ⟨hring, hslot⟩ := h.ring.remove_at
  have hnames := h.names
  have hlisted := h.started
  have hcount := h.count
  -- The numbers of the other slots are the others.
  have hperm : (s.names (pre ++ k :: post)).Perm (c :: s.names (pre ++ post)) := by
    rw [← hname]
    exact (perm_middle.map s.ring.slot).map HcntEntry.counterNum
  have hdistinct := nodup_cons.mp (hperm.nodup_iff.mp hnames)
  refine ⟨{ s₁ with
    ring := s₁.ring.remove (pre.getLastD s₁.ring.head) k
    cntNumbers := s₁.cntNumbers - 1 }, pre, k, post, rfl, hname, ?_, ?_⟩
  · rw [HcntState.delCounter, hs₁]
    rw [hfind₁, hfind, hsame.1]
  have hnames' : HcntState.names { s₁ with
      ring := s₁.ring.remove (pre.getLastD s₁.ring.head) k
      cntNumbers := s₁.cntNumbers - 1 } (pre ++ post) = s.names (pre ++ post) := by
    rw [HcntState.names, SlotRing.values, hsame.1, hslot]
    rfl
  refine ⟨hsame.1 ▸ hring, ?_, fun d => ?_, fun d hd => ?_, ?_⟩
  · rw [hnames']
    exact hdistinct.2
  · rw [hnames', hsame.2.2]
    by_cases hd : d = c
    · subst hd
      simpa using hdistinct.1
    · rw [update_of_ne hd, ← hlisted d, hperm.mem_iff, mem_cons, or_iff_right hd]
  · rw [hnames'] at hd
    exact h.supported d (hperm.mem_iff.mpr (mem_cons_of_mem _ hd))
  · simp only [length_append, length_cons] at hcount ⊢
    rw [hsame.2.1]
    omega
end HcntState.Lists

namespace HcntState.Inv

variable {s : HcntState} {busy free : List Nat} {c : Nat} {v : BitVec 32}

theorem lists (h : s.Inv busy free) : s.Lists busy free :=
  ⟨h.ring, h.names, h.started, h.supported, h.count⟩

theorem init : HcntState.init.Inv [] (range hcntMaxNumber) where
  ring := ⟨rfl, by simp [LinkPath, HcntState.init, hcntMaxNumber, range, range.loop],
    by decide, by decide⟩
  all k := by simp
  names := nodup_nil
  started c := by simp [HcntState.names, SlotRing.values, HcntState.init]
  supported c hc := by simp [HcntState.names, SlotRing.values] at hc
  count := rfl

theorem visits (h : s.Inv busy free) : s.VisitsStarted :=
  ⟨busy, ⟨h.ring.busy_path, h.ring.tail_notMem⟩, (nodup_append.mp h.ring.nodup).1, h.names,
    h.started, h.count, fun k hk => h.ring.reached_iff.mpr ((h.all k).mpr hk)⟩

theorem listed (h : s.Inv busy free) {busy' : List Nat} (h' : s.Listed busy') : busy' = busy :=
  h'.1.unique h.ring.busy_path h'.2 h.ring.tail_notMem

theorem length_eq (h : s.Inv busy free) : busy.length + free.length = hcntMaxNumber := by
  have hperm : (busy ++ free).Perm (range hcntMaxNumber) :=
    (perm_ext_iff_of_nodup h.ring.nodup nodup_range).mpr fun k => by
      rw [h.all, mem_range]
  simpa using hperm.length_eq

theorem addCounter (h : s.Inv busy free) (hc : s.started c = false) (hs : c ∈ supportedCounters) :
    ∃ s' free', (s.setStarted c true).addCounter c v = some s' ∧
      s'.Inv (busy ++ [s.ring.tail]) free' := by
  have hlen := h.lists.length_le
  have hall := h.length_eq
  have hmax : hcntMaxNumber = 30 := rfl
  obtain ⟨i, j, rest, rfl⟩ : ∃ i j rest, free = i :: j :: rest := by
    match free, hall with
    | [], hall => simp at hall; omega
    | [_], hall => simp at hall; omega
    | i :: j :: rest, _ => exact ⟨i, j, rest, rfl⟩
  obtain ⟨s', hadd, h'⟩ := h.lists.addCounter (v := v) hc hs
  obtain ⟨hi, -⟩ := h.ring.free_path
  rw [hi]
  refine ⟨s', j :: rest, hadd, h'.ring, fun k => ?_, h'.names, h'.started, h'.supported, h'.count⟩
  rw [← h.all k]
  simp

theorem delCounter_first (h : s.Inv busy free) (hc : s.started c = true)
    (hhead : (s.ring.slot s.ring.head).counterNum = c) :
    ∃ s' busy' free', (s.setStarted c false).delCounter c = some s' ∧ s'.Inv busy' free' := by
  obtain ⟨s', pre, k, post, rfl, hname, hdel, h'⟩ := h.lists.delCounter hc
  have hnames := h.names
  -- No other slot has the number of the head, so the search ends there.
  have hpre : pre = [] := by
    cases pre with
    | nil => rfl
    | cons b pre =>
      have hb : s.ring.head = b := h.ring.busy_path.1
      rw [hb] at hhead
      simp only [HcntState.names, SlotRing.values, cons_append, map_cons, map_append,
        nodup_cons, mem_append, mem_cons, hhead, hname] at hnames
      exact absurd (.inr (.inl trivial)) hnames.1
  subst hpre
  refine ⟨s', post, free ++ [k], hdel, h'.ring, fun j => ?_, h'.names, h'.started, h'.supported,
    h'.count⟩
  rw [← h.all j]
  simp only [nil_append, mem_append, mem_cons]
  tauto

/-- If it was another one, its slot is lost. -/
theorem delCounter_loses (h : s.Inv busy free) (hc : s.started c = true)
    (hhead : (s.ring.slot s.ring.head).counterNum ≠ c) :
    ∃ s', (s.setStarted c false).delCounter c = some s' ∧ ¬ s'.VisitsStarted := by
  obtain ⟨s', pre, k, post, rfl, hname, hdel, h'⟩ := h.lists.delCounter hc
  have hring := h'.ring
  have hpre : pre ≠ [] := by
    rintro rfl
    have hk : s.ring.head = k := h.ring.busy_path.1
    exact hhead (hk ▸ hname)
  rw [if_neg hpre] at hring
  refine ⟨s', hdel, ?_⟩
  rintro ⟨-, -, -, -, -, -, hall⟩
  have hmem := hring.reached_iff.mp (hall k ((h.all k).mp (by simp)))
  have hnodup := h.ring.nodup
  simp only [mem_append] at hmem
  simp only [nodup_append, nodup_cons, mem_append, mem_cons] at hnodup
  rcases hmem with (hmem | hmem) | hmem
  · exact hnodup.1.2.2 k hmem k (.inl rfl) rfl
  · exact hnodup.1.2.1.1 hmem
  · exact hnodup.2.2 k (.inr (.inl rfl)) k hmem rfl

end HcntState.Inv

/-! ## Runs -/

/-- The state after a call; a call that does not return leaves it as it was. -/
def HcntState.next (s : HcntState) (x : HcntCall) : HcntState := (runCiHcntIns x s).elim s Prod.snd

def HcntCall.Right (s : HcntState) (x : HcntCall) : Prop :=
  (runCiHcntIns x s).isSome = true ∧ (s.next x).VisitsStarted ∧
    (getPowerFlow x.i.inPF = true → ∀ busy busy', s.Listed busy → (s.next x).Listed busy' →
      busy.length ≤ busy'.length)

def HcntCall.StopsFirst (s : HcntState) (x : HcntCall) : Prop :=
  isSupportThisCounter x.counterNum = true → getPowerFlow x.i.inPF = false →
    s.started x.counterNum.toNat = true →
      (s.ring.slot s.ring.head).counterNum = x.counterNum.toNat

/-- The call starts a counter. -/
def HcntCall.Starts (s : HcntState) (x : HcntCall) : Prop :=
  isSupportThisCounter x.counterNum = true ∧ getPowerFlow x.i.inPF = true ∧
    s.started x.counterNum.toNat = false ∧ x.enabled x.counterNum.toNat = true

/-- The call stops a counter. -/
def HcntCall.Stops (s : HcntState) (x : HcntCall) : Prop :=
  isSupportThisCounter x.counterNum = true ∧ getPowerFlow x.i.inPF = false ∧
    s.started x.counterNum.toNat = true

instance (s : HcntState) (x : HcntCall) : Decidable (x.StopsFirst s) :=
  inferInstanceAs (Decidable (_ → _ → _ → _))

section

variable {s : HcntState} {x : HcntCall} {busy free : List Nat}

theorem mem_supportedCounters {c : Int} (h : isSupportThisCounter c = true) :
    c.toNat ∈ supportedCounters := by
  simp only [isSupportThisCounter, Bool.and_eq_true, contains_iff_mem] at h
  exact h.2

/-- A call starts a counter, stops one, or leaves the state as it is. -/
theorem runCiHcntIns_cases (x : HcntCall) (s : HcntState) :
    (∃ ret, runCiHcntIns x s = some (ret, s) ∧ ¬ x.Stops s) ∨
    (x.Starts s ∧ runCiHcntIns x s = ((s.setStarted x.counterNum.toNat true).addCounter
      x.counterNum.toNat x.cmpValue).map fun s' => (.ok (), s')) ∨
    (x.Stops s ∧ runCiHcntIns x s = ((s.setStarted x.counterNum.toNat false).delCounter
      x.counterNum.toNat).map fun s' => (.ok (), s')) := by
  by_cases hsupp : isSupportThisCounter x.counterNum = true
  · by_cases hflow : getPowerFlow x.i.inPF = true
    · have hon : ¬ x.Stops s := fun hstops => by rw [hstops.2.1] at hflow; cases hflow
      rw [runCiHcntIns, if_neg (by simp [hsupp]), if_neg (by simp [hflow])]
      by_cases hstart : s.started x.counterNum.toNat = false ∧ x.enabled x.counterNum.toNat = true
      · exact .inr (.inl ⟨⟨hsupp, hflow, hstart⟩, if_pos hstart⟩)
      · exact .inl ⟨_, if_neg hstart, hon⟩
    · have hflow : getPowerFlow x.i.inPF = false := by simpa using hflow
      rw [runCiHcntIns, if_neg (by simp [hsupp]), if_pos hflow]
      by_cases hstarted : s.started x.counterNum.toNat = true
      · exact .inr (.inr ⟨⟨hsupp, hflow, hstarted⟩, if_pos hstarted⟩)
      · exact .inl ⟨_, if_neg hstarted, fun hstops => hstarted hstops.2.2⟩
  · have hsupp' : isSupportThisCounter x.counterNum = false := by simpa using hsupp
    exact .inl ⟨_, by rw [runCiHcntIns, if_pos hsupp'], fun hstops => hsupp hstops.1⟩

/-- While no slot has been lost, a call goes right just if it stops the first counter or none. -/
theorem HcntState.Inv.right_iff (h : s.Inv busy free) : x.Right s ↔ x.StopsFirst s := by
  rcases runCiHcntIns_cases x s with ⟨ret, hrun, hno⟩ | ⟨hstarts, hrun⟩ | ⟨hstops, hrun⟩
  · have hnext : s.next x = s := by rw [HcntState.next, hrun]; rfl
    refine iff_of_true ⟨by rw [hrun]; rfl, hnext.symm ▸ h.visits, fun _ b b' hb hb' => ?_⟩
      fun hsupp hflow hon => absurd ⟨hsupp, hflow, hon⟩ hno
    rw [hnext] at hb'
    exact Nat.le_of_eq (by rw [h.listed hb, h.listed hb'])
  · obtain ⟨s', free', hadd, hinv⟩ :=
      h.addCounter (v := x.cmpValue) hstarts.2.2.1 (mem_supportedCounters hstarts.1)
    rw [hadd] at hrun
    have hnext : s.next x = s' := by rw [HcntState.next, hrun]; rfl
    refine iff_of_true ⟨by rw [hrun]; rfl, hnext.symm ▸ hinv.visits, fun _ b b' hb hb' => ?_⟩
      fun _ hoff => by rw [hstarts.2.1] at hoff; cases hoff
    rw [hnext] at hb'
    rw [h.listed hb, hinv.listed hb', length_append]
    exact Nat.le_add_right _ _
  · have hfirst : x.StopsFirst s ↔ (s.ring.slot s.ring.head).counterNum = x.counterNum.toNat :=
      ⟨fun hx => hx hstops.1 hstops.2.1 hstops.2.2, fun hx _ _ _ => hx⟩
    rw [hfirst]
    by_cases hhead : (s.ring.slot s.ring.head).counterNum = x.counterNum.toNat
    · obtain ⟨s', busy', free', hdel, hinv⟩ := h.delCounter_first hstops.2.2 hhead
      rw [hdel] at hrun
      have hnext : s.next x = s' := by rw [HcntState.next, hrun]; rfl
      refine iff_of_true ⟨by rw [hrun]; rfl, hnext.symm ▸ hinv.visits, fun hon => ?_⟩ hhead
      rw [hstops.2.1] at hon
      cases hon
    · obtain ⟨s', hdel, hlost⟩ := h.delCounter_loses hstops.2.2 hhead
      rw [hdel] at hrun
      have hnext : s.next x = s' := by rw [HcntState.next, hrun]; rfl
      exact iff_of_false (fun hright => hlost (hnext ▸ hright.2.1)) hhead

theorem HcntState.Inv.next (h : s.Inv busy free) (hx : x.StopsFirst s) :
    ∃ busy free, (s.next x).Inv busy free := by
  unfold HcntState.next
  rcases runCiHcntIns_cases x s with ⟨ret, hrun, -⟩ | ⟨hstarts, hrun⟩ | ⟨hstops, hrun⟩
  · rw [hrun]
    exact ⟨busy, free, h⟩
  · obtain ⟨s', free', hadd, hinv⟩ :=
      h.addCounter (v := x.cmpValue) hstarts.2.2.1 (mem_supportedCounters hstarts.1)
    rw [hrun, hadd]
    exact ⟨_, free', hinv⟩
  · obtain ⟨s', busy', free', hdel, hinv⟩ :=
      h.delCounter_first hstops.2.2 (hx hstops.1 hstops.2.1 hstops.2.2)
    rw [hrun, hdel]
    exact ⟨busy', free', hinv⟩

/-- A call keeps the list as long as a counter that is started does not take the last free slot. -/
theorem HcntState.Lists.next (h : s.Lists busy free)
    (hroom : x.Starts s → s.ring.next s.ring.tail ≠ s.ring.head) :
    ∃ busy free, (s.next x).Lists busy free := by
  unfold HcntState.next
  rcases runCiHcntIns_cases x s with ⟨ret, hrun, -⟩ | ⟨hstarts, hrun⟩ | ⟨hstops, hrun⟩
  · rw [hrun]
    exact ⟨busy, free, h⟩
  · obtain ⟨i, free', rfl⟩ := exists_cons_of_ne_nil h.ring.free_ne_nil
    have hi := h.ring.free_path.1
    cases free' with
    | nil => exact absurd (h.ring.next_tail_eq_iff.mpr (hi ▸ rfl)) (hroom hstarts)
    | cons j rest =>
      obtain ⟨s', hadd, h'⟩ :=
        h.addCounter (v := x.cmpValue) hstarts.2.2.1 (mem_supportedCounters hstarts.1)
      rw [hrun, hadd]
      exact ⟨_, _, h'⟩
  · obtain ⟨s', pre, k, post, -, -, hdel, h'⟩ := h.delCounter hstops.2.2
    rw [hrun, hdel]
    exact ⟨_, _, h'⟩

end

/-- In a run from `init_high_speed` on, the list is right after every call just if no call stops a
counter other than the first one of the list. -/
theorem hcntList_visitsStarted_iff (xs : List HcntCall) :
    Each HcntState.next (fun s x => x.Right s) .init xs ↔
      Each HcntState.next (fun s x => x.StopsFirst s) .init xs := by
  refine Each.iff_of_invariant (I := fun s => ∃ busy free, s.Inv busy free)
    (L := fun _ _ => True) ⟨_, _, HcntState.Inv.init⟩ (fun _ _ _ _ => trivial) ?_ ?_
  · rintro s x ⟨busy, free, h⟩ -
    exact h.right_iff
  · rintro s x ⟨busy, free, h⟩ - hx
    exact h.next hx

/-- `HCNT` on the counter `C236 + c` with compare value 10. -/
def hcntCall (c : UInt8) (flow : Bool) : HcntCall where
  i := ⟨[0xE8, 0xF0, 0x00, 0x14, 236 + c, 0x00, 0x00, 0x00, 0x02, 0xFF, 0x0A, 0x00, 0x00, 0x00], 0, 0,
    0, if flow then 1 else 0, ⟨false, 0, fun _ => 0⟩, .off⟩
  x6 := false
  x7 := false
  stale := 0

/-- `C236` and `C237` are started and `C237` is stopped. The slot it was in is lost. -/
theorem c237_slot_lost : ¬ ∀ xs : List HcntCall,
    Each HcntState.next (fun s x => x.Right s) .init xs := by
  intro h
  obtain ⟨_, _, h₁⟩ := HcntState.Inv.init.next (x := hcntCall 0 true) (by decide)
  obtain ⟨_, _, h₂⟩ := h₁.next (x := hcntCall 1 true) (by decide)
  have hright := h [hcntCall 0 true, hcntCall 1 true, hcntCall 1 false]
    [hcntCall 0 true, hcntCall 1 true] (hcntCall 1 false) [] rfl
  have hfirst : (hcntCall 1 false).StopsFirst
      ((HcntState.init.next (hcntCall 0 true)).next (hcntCall 1 true)) := h₂.right_iff.mp hright
  exact absurd hfirst (by decide)

end Kalyke
