-- SUMMARY: The queue of the user interrupts: the events that fill it and the task that empties it.
import Kalyke.Compiler.State
import Kalyke.Exec.SimpleIns
import Kalyke.Lib.Runs

/-!
# Interrupt Queue

An interrupt of the user program is noted by a message in a queue, from which `interrupt_task` takes
one after the other and runs the interrupt programs. Each source counts how many of its interrupts
are not done yet. Unless a source allows more, an interrupt is dropped while its count is not zero.

So the count has to agree with the queue: a source that is left with a count and without a message
never gets into the queue again.
-/

namespace Kalyke

open List BitVec

/-- The messages that `gtv_InterruptMsgQueueHandle` has room for. -/
def interruptQueueLength : Nat := 30

def intPriLow : BitVec 8 := 0

/-- `plc_interrupt_source_st`, without the program. -/
structure InterruptSource where
  priority : BitVec 8
  intFlag : BitVec 8
  count : BitVec 8

/-- `plc_interrupt_info_st` with the queue and the source whose program `interrupt_task` runs. The
sources are those of the array and, from `maxSysIntNum` on, what lies behind it in the memory. -/
structure InterruptInfo where
  intEnable : Bool
  intSource : BitVec 8 → InterruptSource
  queue : List (BitVec 8)
  running : Option (BitVec 8)

namespace InterruptInfo

variable {s : InterruptInfo}

def setCount (s : InterruptInfo) (n c : BitVec 8) : InterruptInfo :=
  { s with intSource := Function.update s.intSource n { s.intSource n with count := c } }

/-- `xQueueSendToBack` or `xQueueSendToFront`, from an interrupt or not, by the priority. A message
that finds the queue full is lost. -/
def send (s : InterruptInfo) (n priority : BitVec 8) : InterruptInfo :=
  if s.queue.length < interruptQueueLength then
    { s with queue := if priority = intPriLow then s.queue ++ [n] else n :: s.queue }
  else s

def plcUserInterruptInit (s : InterruptInfo) : InterruptInfo where
  intEnable := false
  intSource n := if n.toNat < maxSysIntNum then ⟨intPriLow, 0x01, 0⟩ else s.intSource n
  queue := s.queue
  running := s.running

def plcUserInterruptEnable (s : InterruptInfo) (enable : Bool) : InterruptInfo :=
  { s with intEnable := enable }

def runCiEiIns (s : InterruptInfo) (inPF : BitVec 32) : InterruptInfo :=
  if getPowerFlow inPF then s.plcUserInterruptEnable true else s

def runCiDiIns (s : InterruptInfo) (inPF : BitVec 32) : InterruptInfo :=
  if getPowerFlow inPF then s.plcUserInterruptEnable false else s

/-- The source is enabled, and it may have another interrupt in the queue. -/
def Accepts (s : InterruptInfo) (n : BitVec 8) : Prop :=
  (s.intSource n).intFlag &&& 0x02 ≠ 0 ∧
    ¬ ((s.intSource n).intFlag &&& 0x01 ≠ 0 ∧ (s.intSource n).count ≠ 0)

instance (s : InterruptInfo) (n : BitVec 8) : Decidable (s.Accepts n) :=
  inferInstanceAs (Decidable (_ ∧ _))

def plcAddIntToInterruptQueue (s : InterruptInfo) (n : BitVec 8) : InterruptInfo :=
  if s.intEnable = false then s
  else if maxSysIntNum < n.toNat then s
  else if s.Accepts n then
    (s.setCount n ((s.intSource n).count + 1)).send n (s.intSource n).priority
  else s

/-- A turn of the loop in `interrupt_task` up to the call of the program. -/
def interruptTaskReceive (s : InterruptInfo) : InterruptInfo :=
  match s.running, s.queue with
  | some _, _ => s
  | none, [] => s
  | none, n :: queue =>
    let s := { s with queue := queue }
    if s.intEnable = false then s
    else if (s.intSource n).count = 0 then s
    else { s with running := some n }

/-- The rest of the turn, when the program has ended. -/
def interruptTaskFinish (s : InterruptInfo) : InterruptInfo :=
  match s.running with
  | none => s
  | some n => { s.setCount n ((s.intSource n).count - 1) with running := none }

/-- The state the interrupts start in: no interrupt is noted, and the sources have the flags and
priorities that the system block and the compiler have left. -/
def start (source : BitVec 8 → InterruptSource) : InterruptInfo where
  intEnable := false
  intSource n := if n.toNat < maxSysIntNum then { source n with count := 0 } else source n
  queue := []
  running := none

theorem plcUserInterruptInit_eq (hqueue : s.queue = []) (hidle : s.running = none) :
    s.plcUserInterruptInit = start s.plcUserInterruptInit.intSource := by
  rw [plcUserInterruptInit]
  congr 1
  funext n
  dsimp only
  split <;> rfl

end InterruptInfo

/-! ## Events -/

/-- What happens to the interrupts: a source fires, the user program enables or disables them or the
firmware does, `interrupt_task` begins or ends a turn. -/
inductive InterruptEvent where
  | fire (n : BitVec 8)
  | ei (inPF : BitVec 32)
  | di (inPF : BitVec 32)
  | enable (enable : Bool)
  | receive
  | finish

namespace InterruptInfo

def next (s : InterruptInfo) : InterruptEvent → InterruptInfo
  | .fire n => s.plcAddIntToInterruptQueue n
  | .ei inPF => s.runCiEiIns inPF
  | .di inPF => s.runCiDiIns inPF
  | .enable enable => s.plcUserInterruptEnable enable
  | .receive => s.interruptTaskReceive
  | .finish => s.interruptTaskFinish

/-- The source that an event looks up in the array. -/
def lookup (s : InterruptInfo) : InterruptEvent → Option (BitVec 8)
  | .fire n => if s.intEnable = true ∧ ¬ maxSysIntNum < n.toNat then some n else none
  | .receive => if s.running = none ∧ s.intEnable = true then s.queue.head? else none
  | .finish => s.running
  | _ => none

/-- How many interrupts of a source are in the queue or being handled. -/
def pending (s : InterruptInfo) (n : BitVec 8) : Nat :=
  s.queue.count n + if s.running = some n then 1 else 0

/-- The counts of the sources say what is pending, and a source that does not allow more has one
message in the queue at most. -/
def Agrees (s : InterruptInfo) : Prop :=
  ∀ n : BitVec 8, n.toNat < maxSysIntNum → (s.intSource n).count.toNat = s.pending n ∧
    ((s.intSource n).intFlag &&& 0x01 ≠ 0 → s.queue.count n ≤ 1)

end InterruptInfo

/-- The event looks up a source of the array, the counts agree after it, and an enabled source of
which nothing is pending is queued when it fires. -/
def InterruptEvent.Right (s : InterruptInfo) (x : InterruptEvent) : Prop :=
  (∀ n ∈ s.lookup x, n.toNat < maxSysIntNum) ∧ (s.next x).Agrees ∧
    ∀ n, x = .fire n → s.intEnable = true → n.toNat < maxSysIntNum →
      (s.intSource n).intFlag &&& 0x02 ≠ 0 → s.pending n = 0 → n ∈ (s.next x).queue

/-- A source fires only if it is one of the array, and only if the queue has room for it, and no
message is taken while the interrupts are disabled. -/
def InterruptEvent.Safe (s : InterruptInfo) : InterruptEvent → Prop
  | .fire n => s.intEnable = true → n.toNat ≠ maxSysIntNum ∧
      (n.toNat < maxSysIntNum → s.Accepts n → s.queue.length < interruptQueueLength)
  | .receive => s.running = none → s.queue ≠ [] → s.intEnable = true
  | _ => True

/-! ## Counts -/

namespace InterruptInfo

variable {s : InterruptInfo} {n m c priority : BitVec 8}

@[simp] theorem queue_setCount : (s.setCount n c).queue = s.queue := rfl

@[simp] theorem running_setCount : (s.setCount n c).running = s.running := rfl

@[simp] theorem intSource_send : (s.send n priority).intSource = s.intSource := by
  unfold send
  split <;> rfl

@[simp] theorem running_send : (s.send n priority).running = s.running := by
  unfold send
  split <;> rfl

theorem count_setCount :
    ((s.setCount n c).intSource m).count = if m = n then c else (s.intSource m).count := by
  by_cases hm : m = n
  · subst hm
    simp [setCount]
  · simp [setCount, hm]

@[simp] theorem intFlag_setCount :
    ((s.setCount n c).intSource m).intFlag = (s.intSource m).intFlag := by
  by_cases hm : m = n
  · subst hm
    simp [setCount]
  · simp [setCount, hm]

@[simp] theorem pending_setCount : (s.setCount n c).pending m = s.pending m := rfl

theorem perm_send (h : s.queue.length < interruptQueueLength) :
    (s.send n priority).queue.Perm (n :: s.queue) := by
  rw [send, if_pos h]
  split
  · exact perm_append_singleton n s.queue
  · exact .refl _

theorem send_full (h : ¬ s.queue.length < interruptQueueLength) : s.send n priority = s := by
  rw [send, if_neg h]

theorem pending_le (s : InterruptInfo) (n : BitVec 8) : s.pending n ≤ s.queue.length + 1 := by
  have hcount : s.queue.count n ≤ s.queue.length := count_le_length
  unfold pending
  split <;> omega

/-- What holds of the interrupts in every run of safe events. -/
structure Inv (s : InterruptInfo) : Prop where
  agrees : s.Agrees
  queued : ∀ n ∈ s.queue, n.toNat < maxSysIntNum
  handled : ∀ n ∈ s.running, n.toNat < maxSysIntNum
  room : s.queue.length ≤ interruptQueueLength

namespace Inv

theorem start (source : BitVec 8 → InterruptSource) : (InterruptInfo.start source).Inv where
  agrees n hn := by simp [InterruptInfo.start, pending, hn]
  queued n hn := by simp [InterruptInfo.start] at hn
  handled n hn := by simp [InterruptInfo.start] at hn
  room := Nat.zero_le _

theorem setEnable (h : s.Inv) (b : Bool) : (s.plcUserInterruptEnable b).Inv :=
  ⟨h.agrees, h.queued, h.handled, h.room⟩

/-- A count is far from the largest number of its width. -/
theorem count_lt (h : s.Inv) (hn : n.toNat < maxSysIntNum) :
    (s.intSource n).count.toNat ≤ interruptQueueLength + 1 := by
  have hle := s.pending_le n
  have hroom := h.room
  rw [(h.agrees n hn).1]
  omega

theorem count_add (h : s.Inv) (hn : n.toNat < maxSysIntNum) :
    ((s.intSource n).count + 1).toNat = s.pending n + 1 := by
  have hlt := h.count_lt hn
  rw [toNat_add, (h.agrees n hn).1]
  rw [(h.agrees n hn).1] at hlt
  simp only [interruptQueueLength] at hlt
  exact Nat.mod_eq_of_lt (by simp; omega)

theorem fire (h : s.Inv) (priority : BitVec 8) (hn : n.toNat < maxSysIntNum)
    (haccept : s.Accepts n) (hroom : s.queue.length < interruptQueueLength) :
    ((s.setCount n ((s.intSource n).count + 1)).send n priority).Inv := by
  have hperm : ((s.setCount n ((s.intSource n).count + 1)).send n priority).queue.Perm
      (n :: s.queue) := perm_send hroom
  refine ⟨fun m hm => ?_, fun m hm => ?_, ?_, ?_⟩
  · obtain ⟨hcount, hsingle⟩ := h.agrees m hm
    rw [pending, hperm.count_eq, running_send, intSource_send, running_setCount, count_setCount,
      intFlag_setCount]
    by_cases hmn : m = n
    · subst hmn
      rw [if_pos rfl, h.count_add hm, pending]
      refine ⟨by simp; omega, fun hflag => ?_⟩
      -- a source that allows one message only is accepted with a count of zero
      have hzero : (s.intSource m).count = 0 := by
        by_contra hne
        exact haccept.2 ⟨hflag, hne⟩
      rw [hzero, pending] at hcount
      simp at hcount ⊢
      omega
    · have hnm : ¬ n = m := fun heq => hmn heq.symm
      rw [if_neg hmn, hcount, pending]
      simpa [hnm] using hsingle
  · rcases mem_cons.mp (hperm.mem_iff.mp hm) with rfl | hm
    · exact hn
    · exact h.queued m hm
  · rw [running_send]
    exact h.handled
  · rw [hperm.length_eq, length_cons]
    omega

/-- Without room the source is counted, and its message is lost. -/
theorem fire_full (h : s.Inv) (hn : n.toNat < maxSysIntNum)
    (hfull : ¬ s.queue.length < interruptQueueLength) :
    ¬ ((s.setCount n ((s.intSource n).count + 1)).send n priority).Agrees := by
  have hlost : (s.setCount n ((s.intSource n).count + 1)).send n priority =
      s.setCount n ((s.intSource n).count + 1) := send_full hfull
  rw [hlost]
  intro hagrees
  have hcount := (hagrees n hn).1
  rw [count_setCount, if_pos rfl, h.count_add hn, pending_setCount] at hcount
  omega

/-- A message is taken and its program is run. -/
theorem receive {queue : List (BitVec 8)} (h : s.Inv) (hidle : s.running = none)
    (hqueue : s.queue = n :: queue) : ({ s with queue := queue, running := some n }).Inv := by
  have hn := h.queued n (by simp [hqueue])
  have hroom := h.room
  refine ⟨fun m hm => ?_, fun m hm => ?_, ?_, ?_⟩
  · obtain ⟨hcount, hsingle⟩ := h.agrees m hm
    rw [pending, hidle, hqueue, count_cons] at hcount
    rw [hqueue, count_cons] at hsingle
    refine ⟨?_, fun hflag => ?_⟩
    · simpa [pending] using hcount
    · have hle := hsingle hflag
      dsimp only
      omega
  · exact h.queued m (by rw [hqueue]; exact mem_cons_of_mem n hm)
  · rintro m hm
    obtain rfl : n = m := by simpa using hm
    exact hn
  · rw [hqueue, length_cons] at hroom
    dsimp only
    omega

/-- A message that is taken while the interrupts are disabled stays counted. -/
theorem receive_disabled {queue : List (BitVec 8)} (h : s.Inv) (hidle : s.running = none)
    (hqueue : s.queue = n :: queue) : ¬ ({ s with queue := queue }).Agrees := by
  have hn := h.queued n (by simp [hqueue])
  have hcount := (h.agrees n hn).1
  rw [pending, hidle, hqueue, count_cons_self] at hcount
  intro hagrees
  have hcount' := (hagrees n hn).1
  simp only [pending, hidle] at hcount'
  omega

/-- A message is counted, so it is not taken for nothing. -/
theorem count_head {queue : List (BitVec 8)} (h : s.Inv) (hqueue : s.queue = n :: queue) :
    (s.intSource n).count ≠ 0 := by
  have hcount := (h.agrees n (h.queued n (by simp [hqueue]))).1
  intro hzero
  rw [pending, hzero, hqueue] at hcount
  simp at hcount
  omega

theorem finish (h : s.Inv) : s.interruptTaskFinish.Inv := by
  unfold interruptTaskFinish
  cases hrunning : s.running with
  | none => exact h
  | some n =>
    refine ⟨fun m hm => ?_, h.queued, by simp, h.room⟩
    obtain ⟨hcount, hsingle⟩ := h.agrees m hm
    rw [pending, hrunning] at hcount
    rw [count_setCount, intFlag_setCount]
    refine ⟨?_, hsingle⟩
    by_cases hmn : m = n
    · subst hmn
      rw [if_pos rfl] at hcount ⊢
      rw [toNat_sub_of_le (by rw [le_def, hcount]; simp), hcount, pending]
      simp
    · have hnm : ¬ n = m := fun heq => hmn heq.symm
      rw [if_neg hmn, hcount]
      simp [pending, hnm]

end Inv

end InterruptInfo

/-! ## Runs -/

section

variable {s : InterruptInfo} {x : InterruptEvent} {n : BitVec 8}

theorem InterruptInfo.mem_lookup_fire {m : BitVec 8} : m ∈ s.lookup (.fire n) ↔
    (s.intEnable = true ∧ ¬ maxSysIntNum < n.toNat) ∧ n = m := by
  rw [lookup]
  split
  · rename_i h
    simp [h]
  · rename_i h
    exact iff_of_false (by simp) fun hm => h hm.1

/-- A source that fires while the interrupts are enabled. -/
theorem InterruptInfo.next_fire (henable : s.intEnable = true) (hn : n.toNat < maxSysIntNum)
    (haccept : s.Accepts n) : s.next (.fire n) =
      (s.setCount n ((s.intSource n).count + 1)).send n (s.intSource n).priority := by
  rw [next, plcAddIntToInterruptQueue, if_neg (by simp [henable]), if_neg (by omega),
    if_pos haccept]

theorem InterruptInfo.Inv.fire_safe (h : s.Inv) (hx : (InterruptEvent.fire n).Safe s) :
    (InterruptEvent.fire n).Right s ∧ (s.next (.fire n)).Inv := by
  by_cases hgoes : s.intEnable = true ∧ n.toNat < maxSysIntNum ∧ s.Accepts n
  · obtain ⟨henable, hn, haccept⟩ := hgoes
    have hroom := (hx henable).2 hn haccept
    have hinv := h.fire (s.intSource n).priority hn haccept hroom
    have hnext := InterruptInfo.next_fire henable hn haccept
    rw [← hnext] at hinv
    refine ⟨⟨fun m hm => ?_, hinv.agrees, ?_⟩, hinv⟩
    · obtain ⟨-, rfl⟩ := InterruptInfo.mem_lookup_fire.mp hm
      exact hn
    · rintro m heq - - - -
      obtain rfl := InterruptEvent.fire.inj heq
      rw [hnext, (InterruptInfo.perm_send (by exact hroom)).mem_iff]
      exact mem_cons_self
  · have hnext : s.next (.fire n) = s := by
      rw [InterruptInfo.next, InterruptInfo.plcAddIntToInterruptQueue]
      split_ifs with hoff hbehind haccept
      · rfl
      · rfl
      · have henable : s.intEnable = true := by simpa using hoff
        have hne := (hx henable).1
        exact absurd ⟨henable, by omega, haccept⟩ hgoes
      · rfl
    rw [hnext]
    refine ⟨⟨fun m hm => ?_, by rw [hnext]; exact h.agrees, ?_⟩, h⟩
    · obtain ⟨⟨henable, hle⟩, rfl⟩ := InterruptInfo.mem_lookup_fire.mp hm
      have hne := (hx henable).1
      omega
    · rintro m heq henable hm hflag hpending
      obtain rfl := InterruptEvent.fire.inj heq
      -- with nothing pending the source would have been accepted
      refine absurd ⟨henable, hm, hflag, fun hfull => hfull.2 ?_⟩ hgoes
      have hcount := (h.agrees n hm).1
      rw [hpending] at hcount
      exact eq_of_toNat_eq hcount

theorem InterruptInfo.Inv.fire_unsafe (h : s.Inv) (hx : ¬ (InterruptEvent.fire n).Safe s) :
    ¬ (InterruptEvent.fire n).Right s := by
  rintro ⟨hlookup, hagrees, -⟩
  refine hx fun henable => ?_
  have hne : n.toNat ≠ maxSysIntNum := by
    intro heq
    have hlt := hlookup n (by simp [InterruptInfo.lookup, henable, heq])
    omega
  refine ⟨hne, fun hn haccept => ?_⟩
  by_contra hfull
  rw [InterruptInfo.next_fire henable hn haccept] at hagrees
  exact h.fire_full hn hfull hagrees

theorem InterruptInfo.Inv.receive_iff (h : s.Inv) :
    (InterruptEvent.receive.Right s ↔ InterruptEvent.receive.Safe s) ∧
      (InterruptEvent.receive.Safe s → (s.next .receive).Inv) := by
  have hlookup : ∀ n ∈ s.lookup .receive, n.toNat < maxSysIntNum := by
    intro n hn
    rw [InterruptInfo.lookup] at hn
    split at hn
    · exact h.queued n (mem_of_mem_head? hn)
    · cases hn
  have hright (hinv : (s.next .receive).Agrees) : InterruptEvent.receive.Right s :=
    ⟨hlookup, hinv, fun n heq => by cases heq⟩
  cases hrunning : s.running with
  | some m =>
    have hnext : s.next .receive = s := by
      simp only [InterruptInfo.next, InterruptInfo.interruptTaskReceive, hrunning]
    rw [hnext] at hright ⊢
    refine ⟨iff_of_true (hright h.agrees) fun hidle => ?_, fun _ => h⟩
    rw [hrunning] at hidle
    cases hidle
  | none =>
    cases hqueue : s.queue with
    | nil =>
      have hnext : s.next .receive = s := by
        simp only [InterruptInfo.next, InterruptInfo.interruptTaskReceive, hrunning, hqueue]
      rw [hnext] at hright ⊢
      exact ⟨iff_of_true (hright h.agrees) fun _ hne => absurd hqueue hne, fun _ => h⟩
    | cons n queue =>
      have hsafe : InterruptEvent.receive.Safe s ↔ s.intEnable = true := by
        simp [InterruptEvent.Safe, hrunning, hqueue]
      rw [hsafe]
      cases henable : s.intEnable with
      | false =>
        have hnext : s.next .receive = { s with queue := queue } := by
          simp only [InterruptInfo.next, InterruptInfo.interruptTaskReceive, hrunning, hqueue,
            henable, if_true]
        refine ⟨iff_of_false (fun hr => h.receive_disabled hrunning hqueue ?_) (by simp), by simp⟩
        rw [← hnext]
        exact hr.2.1
      | true =>
        have hnext : s.next .receive = { s with queue := queue, running := some n } := by
          simp only [InterruptInfo.next, InterruptInfo.interruptTaskReceive, hrunning, hqueue,
            henable, if_neg (h.count_head hqueue)]
          rfl
        have hinv := h.receive hrunning hqueue
        rw [← hnext] at hinv
        exact ⟨iff_of_true (hright hinv.agrees) rfl, fun _ => hinv⟩

/-- The events that are always safe. -/
theorem InterruptInfo.Inv.right_of_inv (h : (s.next x).Inv)
    (hlookup : ∀ n ∈ s.lookup x, n.toNat < maxSysIntNum) (hx : ∀ n, x ≠ .fire n) : x.Right s :=
  ⟨hlookup, h.agrees, fun n heq => absurd heq (hx n)⟩

theorem InterruptInfo.Inv.step (h : s.Inv) :
    (x.Right s ↔ x.Safe s) ∧ (x.Safe s → (s.next x).Inv) := by
  have hnone : ∀ n ∈ (none : Option (BitVec 8)), n.toNat < maxSysIntNum := by simp
  cases x with
  | fire n =>
    refine ⟨⟨fun hr => ?_, fun hx => (h.fire_safe hx).1⟩, fun hx => (h.fire_safe hx).2⟩
    by_contra hx
    exact h.fire_unsafe hx hr
  | receive => exact h.receive_iff
  | finish =>
    have hinv : (s.next .finish).Inv := h.finish
    exact ⟨iff_of_true (hinv.right_of_inv h.handled (by simp)) trivial, fun _ => hinv⟩
  | ei inPF =>
    have hinv : (s.next (.ei inPF)).Inv := by
      rw [InterruptInfo.next, InterruptInfo.runCiEiIns]
      split
      · exact h.setEnable true
      · exact h
    exact ⟨iff_of_true (hinv.right_of_inv hnone (by simp)) trivial, fun _ => hinv⟩
  | di inPF =>
    have hinv : (s.next (.di inPF)).Inv := by
      rw [InterruptInfo.next, InterruptInfo.runCiDiIns]
      split
      · exact h.setEnable false
      · exact h
    exact ⟨iff_of_true (hinv.right_of_inv hnone (by simp)) trivial, fun _ => hinv⟩
  | enable b =>
    have hinv : (s.next (.enable b)).Inv := h.setEnable b
    exact ⟨iff_of_true (hinv.right_of_inv hnone (by simp)) trivial, fun _ => hinv⟩

end

/-- In a run that starts without a noted interrupt, the counts agree with the queue after every
event just if every event is a safe one. -/
theorem interruptQueue_agrees_iff (source : BitVec 8 → InterruptSource)
    (xs : List InterruptEvent) :
    Each InterruptInfo.next (fun s x => x.Right s) (.start source) xs ↔
      Each InterruptInfo.next (fun s x => x.Safe s) (.start source) xs :=
  Each.iff_of_invariant (I := InterruptInfo.Inv) (L := fun _ _ => True)
    (InterruptInfo.Inv.start source) (fun _ _ _ _ => trivial) (fun _ _ h _ => h.step.1)
    (fun _ _ h _ => h.step.2)

/-- The sources after the compiler has met the interrupt program of `X0`. -/
def x0Source (n : BitVec 8) : InterruptSource := ⟨intPriLow, if n = 0 then 0x03 else 0x01, 0⟩

/-- `X0` fires, and the interrupts are disabled before `interrupt_task` takes the message. -/
theorem disabled_interrupt_stays_counted : ¬ ∀ (source : BitVec 8 → InterruptSource)
    (xs : List InterruptEvent),
    Each InterruptInfo.next (fun s x => x.Right s) (.start source) xs := by
  intro h
  have hright := h x0Source [.ei 1, .fire 0, .di 1, .receive] [.ei 1, .fire 0, .di 1] .receive [] rfl
  have hcount := (hright.2.1 0 (by decide)).1
  revert hcount
  decide

end Kalyke
