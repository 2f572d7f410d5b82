-- SUMMARY: What `X2` and `X5` reset: the counters that are started and have them as reset inputs.
import Kalyke.Highspeed.Pulses

/-!
# Reset Inputs

A pulse at `X2` or `X5` ends with a loop over the counters. At `X2` it follows the links of the
list. At `X5` it goes over the first slots of the array, as many as there are counters in the list.
These are not the slots of the list any more once its first counter has been stopped.
-/

namespace Kalyke

open List Option

/-! ## Cells -/

/-- What there is of a high-speed counter in the elements: its value, its bit in `SM`, and its
contact. -/
structure CounterCells where
  value : BitVec 32
  mode : Bool
  contact : Bool
deriving DecidableEq

def Store.counterCells (s : Store) (c : Nat) : CounterCells := ⟨s.c32 c, s.bit .SM c, s.bit .C c⟩

def CounterCells.reset (x : CounterCells) : CounterCells := { x with value := 0, contact := false }

/-! ## The law -/

/-- The counters with a reset input. -/
def PulseInput.resets : PulseInput → List Nat
  | x2 => HighSpeed.x002Resets
  | x5 => HighSpeed.x005Resets
  | _ => []

/-- Behind the first part of a routine, the counters that are started and have its input as reset
input are reset, and the others stay as they are. -/
def PulseEvent.ResetsRight (s : PulseRun) : PulseEvent → Prop
  | .pulse x level => s.hs.spdCount x = none →
    ∃ p hs, s.hs.compared x level = some p ∧ s.hs.interrupt x level = some (hs, p.2) ∧
      ∀ c, hs.store.counterCells c =
        if c ∈ x.resets ∧ s.hs.hcnt.started c = true then (p.1.store.counterCells c).reset
        else p.1.store.counterCells c
  | _ => True

/-- The slots of the list are the first ones. -/
def HcntState.FirstSlots (s : HcntState) : Prop :=
  ∀ busy ∈ s.ring.walk (hcntMaxNumber + 1) s.ring.head, ∀ k, k ∈ busy ↔ k < s.cntNumbers

/-- A counter that is started does not take the last free slot, and when there is a pulse at `X5`
the slots of the list are the first ones. -/
def PulseEvent.InList (s : PulseRun) : PulseEvent → Prop
  | .hcnt x => HcntCall.Starts s.hs.hcnt { x with i := { x.i with store := s.hs.store } } →
    s.hs.hcnt.ring.next s.hs.hcnt.ring.tail ≠ s.hs.hcnt.ring.head
  | .pulse .x5 _ => s.hs.hcnt.FirstSlots
  | _ => True

/-! ## The loops -/

variable {s : HighSpeed} {busy free : List Nat}

/-- The loops reset the counters of the slots. -/
theorem HighSpeed.foldl_handleCounterReset (resets ks : List Nat) (s : HighSpeed) (c : Nat) :
    (ks.foldl (fun s k => handleCounterReset resets s (s.hcnt.ring.slot k).counterNum)
      s).store.counterCells c =
      if c ∈ resets ∧ c ∈ s.hcnt.names ks then (s.store.counterCells c).reset
      else s.store.counterCells c := by
  induction ks generalizing s with
  | nil => rw [if_neg (fun h => not_mem_nil h.2)]; rfl
  | cons k ks ih =>
    obtain ⟨d, hd⟩ : ∃ d, (s.hcnt.ring.slot k).counterNum = d := ⟨_, rfl⟩
    have hnames : s.hcnt.names (k :: ks) = d :: s.hcnt.names ks := hd ▸ rfl
    have hhcnt : (handleCounterReset resets s d).hcnt = s.hcnt := by
      rw [handleCounterReset]
      split <;> rfl
    have hcells : (handleCounterReset resets s d).store.counterCells c =
        if c ∈ resets ∧ c = d then (s.store.counterCells c).reset else s.store.counterCells c := by
      unfold handleCounterReset
      by_cases hr : resets.contains d = true
      · rw [if_pos hr]
        by_cases hc : c = d
        · subst hc
          rw [if_pos ⟨contains_iff_mem.mp hr, rfl⟩]
          simp [Store.counterCells, CounterCells.reset, Store.setC32, Store.setBit]
        · rw [if_neg (fun h : c ∈ resets ∧ c = d => hc h.2)]
          simp [Store.counterCells, Store.setC32, Store.setBit, hc]
      · rw [if_neg hr, if_neg fun h : c ∈ resets ∧ c = d =>
          hr (contains_iff_mem.mpr (h.2 ▸ h.1))]
    rw [foldl_cons, hd, ih, hhcnt, hcells, hnames]
    by_cases hc : c = d
    · by_cases hr : d ∈ resets
      · simp [hr, hc, CounterCells.reset]
      · simp [hr, hc]
    · simp [hc]

theorem HcntState.Lists.walk {s : HcntState} (h : s.Lists busy free) :
    s.ring.walk (hcntMaxNumber + 1) s.ring.head = some busy := by
  have hlen := h.length_le
  have hmax : hcntMaxNumber = 30 := rfl
  exact SlotRing.IsRing.walk_eq h.ring.busy_path h.ring.tail_notMem (by omega)

/-- A routine resets what it has to. -/
theorem HcntState.Lists.reset (h : s.hcnt.Lists busy free) (x : PulseInput)
    (hfirst : x = .x5 → s.hcnt.FirstSlots) :
    ∃ s', s.reset x = some s' ∧ ∀ c, s'.store.counterCells c =
      if c ∈ x.resets ∧ s.hcnt.started c = true then (s.store.counterCells c).reset
      else s.store.counterCells c := by
  cases x with
  | x2 =>
    refine ⟨_, by rw [HighSpeed.reset, HighSpeed.resetListed, h.walk]; rfl, fun c => ?_⟩
    rw [HighSpeed.foldl_handleCounterReset]
    exact if_congr (and_congr_right' (h.started c)) rfl rfl
  | x5 =>
    refine ⟨_, rfl, fun c => ?_⟩
    rw [HighSpeed.resetFirst, HighSpeed.foldl_handleCounterReset]
    have hslots := hfirst rfl busy h.walk
    have hnames : c ∈ s.hcnt.names (range s.hcnt.cntNumbers) ↔ c ∈ s.hcnt.names busy := by
      simp only [HcntState.names, SlotRing.values, List.mem_map, mem_range, hslots]
    exact if_congr (and_congr_right' (hnames.trans (h.started c))) rfl rfl
  | _ => exact ⟨s, rfl, fun c => (if_neg (fun h => not_mem_nil h.1)).symm⟩

/-! ## Runs -/

/-- What holds in every state: the rings, and the list of the counters. -/
def PulseRun.Listed (s : PulseRun) : Prop := s.Rings ∧ ∃ busy free, s.hs.hcnt.Lists busy free

theorem PulseRun.Listed.next {s : PulseRun} (h : s.Listed) {e : PulseEvent} (he : e.InList s) :
    e.ResetsRight s ∧ (s.next e).Listed := by
  obtain ⟨hrings, busy, free, hlists⟩ := h
  have hnext := hrings.next e
  cases e with
  | pulse x level =>
    have hkeeps : (s.next (.pulse x level)).hs.hcnt = s.hs.hcnt := by
      obtain ⟨hs, hint, hhcnt, -⟩ := hrings.interrupt x level
      rw [← hhcnt]
      change ((s.hs.interrupt x level).elim s.hs Prod.fst).hcnt = _
      rw [hint]
      rfl
    refine ⟨fun hspd => ?_, hnext, busy, free, hkeeps ▸ hlists⟩
    obtain ⟨hs₁, hcompared, hhcnt, -⟩ := hrings.compared hspd level
    rw [← hhcnt] at hlists
    obtain ⟨hs, hreset, hcells⟩ := hlists.reset x fun hx => by
      subst hx
      exact hhcnt ▸ he
    refine ⟨_, hs, hcompared, ?_, hhcnt ▸ hcells⟩
    rw [HighSpeed.interrupt, hspd]
    change (s.hs.compared x level).bind _ = _
    rw [hcompared, bind_some, hreset, map_some]
  | hcnt x => exact ⟨trivial, hnext, hlists.next he⟩
  | start sNum counterNum i kind =>
    refine ⟨trivial, hnext, busy, free, ?_⟩
    change (s.start sNum counterNum i kind).hs.hcnt.Lists busy free
    unfold PulseRun.start
    dsimp only
    split <;> exact hlists
  | stop | spd | other => exact ⟨trivial, hnext, busy, free, hlists⟩

/-- In a run from `init_high_speed` on that keeps the counters in the list, and those in the first
slots when there is a pulse at `X5`, each pulse resets what it has to. -/
theorem resets_right (store : Store) (interrupts : InterruptInfo) (xs : List PulseEvent)
    (h : Each PulseRun.next (fun s e => e.InList s) (.init store interrupts) xs) :
    Each PulseRun.next (fun s e => e.ResetsRight s) (.init store interrupts) xs := by
  have hinit : (PulseRun.init store interrupts).Listed :=
    ⟨(PulseRun.Inv.init store interrupts).rings, _, _, HcntState.Inv.init.lists⟩
  exact Each.of_invariant hinit h fun _ _ hinv he => hinv.next he

/-- `C245` and `C253` are started. -/
def c245C253 : List PulseEvent := [.hcnt (hcntCall 9 true), .hcnt (hcntCall 17 true)]

/-- And `C245` is stopped. -/
def c253Left : List PulseEvent := c245C253 ++ [.hcnt (hcntCall 9 false)]

/-- The state after some events. -/
def resetRun (xs : List PulseEvent) : PulseRun :=
  xs.foldl PulseRun.next (.init ninesStore noInterrupts)

/-- `C245` and `C253` are reset by a pulse at `X5`. -/
theorem resets_right_c245 : Each PulseRun.next (fun s e => e.ResetsRight s)
    (.init ninesStore noInterrupts) (c245C253 ++ [pulseLow .x5]) := by
  refine resets_right ninesStore noInterrupts _ ?_
  refine Each.cons_iff.mpr ⟨fun _ => by decide, Each.cons_iff.mpr ⟨fun _ => by decide, ?_⟩⟩
  refine Each.cons_iff.mpr ⟨fun busy hbusy k => ?_, Each.nil⟩
  have hwalk : (resetRun c245C253).hs.hcnt.ring.walk (hcntMaxNumber + 1)
      (resetRun c245C253).hs.hcnt.ring.head = some [0, 1] := by decide
  obtain rfl := some.inj (hwalk.symm.trans hbusy)
  have hcount : (resetRun c245C253).hs.hcnt.cntNumbers = 2 := by decide
  change k ∈ [0, 1] ↔ k < (resetRun c245C253).hs.hcnt.cntNumbers
  rw [mem_pair]
  omega

/-- The slot of `C253` is not the first one any more, and it is not reset. -/
theorem c253_not_reset : ¬ ∀ (store : Store) (interrupts : InterruptInfo) (xs : List PulseEvent),
    Each PulseRun.next (fun s e => e.ResetsRight s) (.init store interrupts) xs := by
  intro h
  obtain ⟨p, hs, -, hhs, hcells⟩ := h ninesStore noInterrupts (c253Left ++ [pulseLow .x5])
    c253Left (pulseLow .x5) [] rfl rfl
  have hstays : ((resetRun c253Left).hs.interrupt .x5 fun _ => false).map
      (fun q => (q.1.store.counterCells 253).value) = some 9 := by decide
  have hcell := hcells 253
  rw [show (resetRun c253Left).hs.interrupt .x5 (fun _ => false) = some (hs, p.2) from hhs,
    map_some, hcell] at hstays
  exact absurd (show (0 : BitVec 32) = 9 from some.inj hstays) (by decide)

end Kalyke
