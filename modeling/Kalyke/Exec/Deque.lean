-- SUMMARY: `PUSH`, `FIFO` and `LIFO` as the operations of a deque that lies behind its count.
import Kalyke.Exec.Atomic
import Kalyke.Exec.WordBlock
import Kalyke.Lib.BoundedDeque

/-!
# Queues

The head operand of `PUSH`, `FIFO` and `LIFO` is a block of words: the number of values, and the
values, the oldest first. Together the three instructions are to be a deque, in which no value is
lost or doubled. They are if the head and the destination are operands that give back what is saved
in them. The plain `V` operand is not: as a head it never gets a value, for its words are saved one
layer up.
-/

namespace Kalyke

open List Nat Except BoundedDeque
open BitVec (toNat_ofNat)

/-! ## Instructions -/

/-- The instructions on a queue. -/
inductive QueueIns where
  | push | fifo | lifo
deriving DecidableEq, Repr

namespace QueueIns

/-- Where the head operand stands behind the instruction code. -/
def headAt : QueueIns → Nat
  | push => 6
  | fifo | lifo => 2

/-- Where the value to be pushed or the destination stands. -/
def otherAt : QueueIns → Nat
  | push => 2
  | fifo | lifo => 6

/-- The special bit that says that the queue is full, or empty. -/
def flag : QueueIns → Nat
  | push => 181
  | fifo | lifo => 180

def body : QueueIns → BodyInput → BodyResult
  | push => runCiPushIns
  | fifo => runCiFifoIns
  | lifo => runCiLifoIns

end QueueIns

/-- An instruction in its place. The elements are those of the state it is executed in. -/
structure QueueCall where
  ins : QueueIns
  input : BodyInput

namespace QueueCall

variable (x : QueueCall) (s : Store)

def run : BodyResult := x.ins.body { x.input with store := s }

def step : Store := (x.run s).2.2

/-- The operand of the count and the values. -/
def head : WordOperand := x.input.operand x.ins.headAt

/-- The value to be pushed, or the destination. -/
def other : WordOperand := x.input.operand x.ins.otherAt

def size : WordOperand := x.input.operand 10

/-- The operation that is asked for. A value to be pushed is that of its operand, if it has one. -/
def Asks : Op (BitVec 16) → Prop
  | .append v => x.ins = .push ∧ ∀ w, x.other.get 0 s = .ok w → w = v
  | .oldest => x.ins = .fifo
  | .newest => x.ins = .lifo

end QueueCall

/-! ## The law of the queue -/

namespace WordOperand

/-- The block of the operand is the number of the values, at most `n`, and the values. -/
structure Represents (o : WordOperand) (n : Nat) (s : Store) (zs : List (BitVec 16)) : Prop where
  length_le : zs.length ≤ n
  count : o.get 0 s = .ok (BitVec.ofNat 16 zs.length)
  values : Laid ok (fun k => o.get k s) zs

/-- What else is executed leaves the count and the values alone. -/
def Kept (o : WordOperand) (n : Nat) (s s' : Store) : Prop := ∀ k ≤ n, o.get k s' = o.get k s

def count (o : WordOperand) (s : Store) : Nat :=
  match o.get 0 s with
  | .ok x => x.toNat
  | .error _ => 0

/-- Word `k` of a block, which the operand `o` has, can be saved in the operand: it has room for the
value, and lies apart from the index register of `o` and from the first `m` words of the block,
which are apart from its own index register. -/
def Takes (d o : WordOperand) (b : WordBlock) (k m : Nat) (s : Store) : Prop :=
  ∃ e, d.HasBlock e 1 s ∧ e.kept (b.read k s) = b.read k s ∧
    (∀ c ∈ e.cells 0, c ∉ o.register ∧ ∀ j < m, c ∉ b.cells j) ∧
    ∀ c ∈ d.register, ∀ j < m, c ∉ b.cells j

end WordOperand

/-- An instruction on the queue at `o` of size `n`, executed with power flow, and the operation it
stands for. -/
structure QueueLegal (o : WordOperand) (n : Nat) (s : Store) (y : QueueCall × Op (BitVec 16)) :
    Prop where
  power : getPowerFlow y.1.input.inPF = true
  head : y.1.head.Same o
  size : y.1.size.get 0 s = .ok (BitVec.ofNat 16 n)
  asks : y.1.Asks s y.2

/-- The instruction passes and does what the deque does. What it cannot do changes its special bit
only; else the bit is cleared, and the value that comes out is that of the destination. -/
def QueueRight (o : WordOperand) (n : Nat) (zs : List (BitVec 16)) (s : Store)
    (y : QueueCall × Op (BitVec 16)) : Prop :=
  (y.1.run s).1 = .ok () ∧ o.Represents n (y.1.step s) (next n zs y.2) ∧
  (Refused n zs y.2 → y.1.step s = s.setBit (.elem .SM) y.1.ins.flag true) ∧
  (¬ Refused n zs y.2 → (y.1.step s).getBit (.elem .SM) y.1.ins.flag = false ∧
    ∀ v ∈ delivered zs y.2, y.1.other.get 0 (y.1.step s) = .ok v)

/-- The head has no special bits. An instruction that finds room, or a value, finds its words in a
block that can hold the count and the values; a value to be pushed is there, and does not hang on
the special bit; and a destination takes the value that comes out. -/
def QueueRegular (o : WordOperand) (n : Nat) (s : Store) (x : QueueCall) : Prop :=
  o.type ≠ some .knSm ∧
  match x.ins with
  | .push => o.count s < n → ∃ b v, o.HasBlock b (o.count s + 2) s ∧
      b.kept (BitVec.ofNat 16 (o.count s + 1)) = BitVec.ofNat 16 (o.count s + 1) ∧ b.kept v = v ∧
      x.other.get 0 s = .ok v ∧ x.other.get 0 (s.setBit (.elem .SM) 181 false) = .ok v
  | .fifo => 0 < o.count s → ∃ b, o.HasBlock b (o.count s + 1) s ∧
      x.other.Takes o b 1 (o.count s + 1) s
  | .lifo => 0 < o.count s → ∃ b, o.HasBlock b (o.count s + 1) s ∧
      x.other.Takes o b (o.count s) (o.count s) s

/-! ## Two places of one operand -/

namespace WordOperand

variable {o o' : WordOperand} {b : WordBlock} {m : Nat} {s : Store}

theorem Same.places (h : o'.Same o) (s : Store) (z : Bool) :
    operandKn o'.ucode o'.addr z = operandKn o.ucode o.addr z ∧
    operandKnStart o'.ucode o'.addr s z = operandKnStart o.ucode o.addr s z ∧
    operandStart o'.ucode o'.addr s z = operandStart o.ucode o.addr s z := by
  obtain ⟨hsub, -, hnum, -⟩ := h
  simp only [operandKn, operandKnStart, operandStart, hsub, hnum, and_self]

theorem Same.get (h : o'.Same o) (k : Nat) (s : Store) : o'.get k s = o.get k s := by
  have hkn (z : Bool) := (h.places s z).1
  have hknStart (z : Bool) := (h.places s z).2.1
  have hstart (z : Bool) := (h.places s z).2.2
  obtain ⟨hsub, htype, hnum, hlevel⟩ := h
  rw [type, type] at htype
  simp only [WordOperand.get, getWord, htype, hlevel, hkn, hknStart, hstart, hsub, hnum]

theorem Same.block (h : o'.Same o) (s : Store) : o'.block s = o.block s := by
  have hkn (z : Bool) := (h.places s z).1
  have hknStart (z : Bool) := (h.places s z).2.1
  have hstart (z : Bool) := (h.places s z).2.2
  obtain ⟨-, htype, -, hlevel⟩ := h
  simp only [WordOperand.block, htype, hlevel, hkn, hknStart, blockStart, hstart]

theorem Same.register (h : o'.Same o) : o'.register = o.register := by
  obtain ⟨hsub, htype, -, hlevel⟩ := h
  simp only [WordOperand.register, htype, hlevel, knRegisterCells, registerCells, hsub]

theorem Same.hasBlock (h : o'.Same o) (hb : o.HasBlock b m s) : o'.HasBlock b m s :=
  ⟨(h.block s).trans hb.block, h.2.1 ▸ hb.plain, hb.fits⟩

end WordOperand

/-! ## Saving words of a block -/

section

variable {o d : WordOperand} {b e : WordBlock} {j k m n len : Nat} {s s' : Store} {v : BitVec 16}
variable {A : Cell → Prop} {c : Cell} {i : BodyInput} {q : Nat} {ms : List (Move (BitVec 16))}

theorem WordBlock.read_of_changes (h : ChangesOnly A s s') (hA : ∀ c ∈ b.cells k, ¬ A c) :
    b.read k s' = b.read k s :=
  WordBlock.read_of_agree fun c hc => h.cells c (hA c hc)

/-- A block that can hold a count can hold a smaller one. -/
theorem WordBlock.kept_ofNat (h : b.kept (BitVec.ofNat 16 len) = BitVec.ofNat 16 len)
    (hlen : len < 65536) (hk : k ≤ len) : b.kept (BitVec.ofNat 16 k) = BitVec.ofNat 16 k := by
  cases b with
  | bits _ width _ =>
    simp only [WordBlock.kept, cutTo] at h ⊢
    have hcut := congrArg BitVec.toNat h
    simp only [toNat_ofNat] at hcut ⊢
    rw [mod_eq_of_lt (Nat.lt_of_le_of_lt hk hlen), mod_eq_of_lt (by omega)]
  | elems _ _ _ => rfl

theorem changesOnly_sm (k : Nat) (v : Bool) :
    ChangesOnly (· = .bit .SM k) s (s.setBit (.elem .SM) k v) :=
  ⟨fun _ hc => read_setBit (fun heq => hc heq) v, rest_setBit⟩

namespace WordOperand

theorem ne_bit_of_register (hc : c ∈ o.register) (area : BitArea) (k : Nat) :
    c ≠ area.cell k := by
  have hword : ∃ r, c = .word .Z r := by
    rw [register] at hc
    split at hc
    · rw [knRegisterCells] at hc
      split at hc
      · exact ⟨_, mem_singleton.mp hc⟩
      · cases hc
    · rw [registerCells] at hc
      split at hc
      · exact ⟨_, mem_singleton.mp hc⟩
      · cases hc
    · cases hc
  obtain ⟨r, rfl⟩ := hword
  cases area with
  | elem e => exact fun heq => by cases heq
  | lm layer => exact fun heq => by cases heq

namespace HasBlock

/-- A block stays where it is when a bit is written. -/
theorem setBit (h : o.HasBlock b m s) (area : BitArea) (k : Nat) (v : Bool) :
    o.HasBlock b m (s.setBit area k v) :=
  h.of_changes (A := (· = area.cell k)) ⟨fun _ hc => read_setBit hc v, rest_setBit⟩
    fun _ hc => ne_bit_of_register hc area k

theorem setSm (h : o.HasBlock b m s) (k : Nat) (v : Bool) :
    o.HasBlock b m (s.setBit (.elem .SM) k v) :=
  h.setBit (.elem .SM) k v

theorem read_setSm (h : o.HasBlock b m s) (k : Nat) (v : Bool) :
    b.read j (s.setBit (.elem .SM) k v) = b.read j s :=
  WordBlock.read_of_changes (changesOnly_sm k v) fun _ hc heq =>
    sm_not_mem_cells h.block h.plain k (heq ▸ hc)

/-- The special bits stay as they are. -/
theorem sm_save (h : o.HasBlock b m s) (hk : k < m) (v : BitVec 16) :
    (o.save k v s).2.getBit (.elem .SM) n = s.getBit (.elem .SM) n :=
  BitArea.getBit_of_agree ((h.save_changesOnly hk v).cells _
    (sm_not_mem_cells h.block h.plain n))

end HasBlock

namespace Takes

theorem setSm (h : d.Takes o b k m s) (hb : o.HasBlock b len s) (n : Nat) (v : Bool) :
    d.Takes o b k m (s.setBit (.elem .SM) n v) := by
  obtain ⟨e, he, hkept, hapart⟩ := h
  refine ⟨e, he.setSm n v, ?_, hapart⟩
  rw [hb.read_setSm]
  exact hkept

theorem saved (h : d.Takes o b k m s) (hb : o.HasBlock b len s) :
    o.HasBlock b len (d.save 0 (b.read k s) s).2 ∧
    (∀ j < m, b.read j (d.save 0 (b.read k s) s).2 = b.read j s) ∧
    (d.save 0 (b.read k s) s).2.getBit (.elem .SM) n = s.getBit (.elem .SM) n := by
  obtain ⟨e, he, -, hapart, -⟩ := h
  have hchanges := he.save_changesOnly Nat.one_pos (b.read k s)
  refine ⟨hb.of_changes hchanges fun c hc hmem => (hapart c hmem).1 hc, fun j hj => ?_,
    he.sm_save Nat.one_pos _⟩
  exact WordBlock.read_of_changes hchanges fun c hc hmem => (hapart c hmem).2 j hj hc

/-- Where only words of the block change afterwards, the operand has the word that was saved. -/
theorem get_of_changes (h : d.Takes o b k m s)
    (hc : ChangesOnly A (d.save 0 (b.read k s) s).2 s')
    (hA : ∀ c, A c → ∃ j < m, c ∈ b.cells j) : d.get 0 s' = .ok (b.read k s) := by
  obtain ⟨e, he, hkept, hapart, hregister⟩ := h
  have hthere : d.HasBlock e 1 s' := by
    refine (he.saved Nat.one_pos _).of_changes hc fun c hmem hAc => ?_
    obtain ⟨j, hj, hcell⟩ := hA c hAc
    exact hregister c hmem j hj hcell
  rw [hthere.get Nat.one_pos, WordBlock.read_of_changes hc, he.read_save Nat.one_pos, hkept]
  intro c hmem hAc
  obtain ⟨j, hj, hcell⟩ := hA c hAc
  exact (hapart c hmem).2 j hj hcell

end Takes

end WordOperand

theorem words_of_get (h : (i.operand q).get k s = .ok v) : i.words q k 1 s = .ok [v] := by
  obtain ⟨xs, hxs, rfl⟩ := map_eq_ok h
  obtain ⟨x, rfl⟩ := length_eq_one_iff.mp (length_words hxs)
  exact hxs

theorem runMoves_save {read : Store → Except PlcErr (List (BitVec 16))}
    (h : (i.operand q).HasBlock b m s) (hk : k < m) (hread : read s = .ok [v]) :
    runMoves i.saveWords (⟨read, i.pc + q, k⟩ :: ms) s =
      runMoves i.saveWords ms ((i.operand q).save k v s).2 := by
  have hsave : i.saveWords (i.pc + q) k [v] s = (.ok (), ((i.operand q).save k v s).2) := by
    rw [← h.save_ok hk v]
    rfl
  simp only [runMoves, hread, hsave]

theorem runMoves_take {q' : Nat} (hb : (i.operand q).HasBlock b len s) (hk : k < len)
    (ht : (i.operand q').Takes (i.operand q) b k m s) :
    runMoves i.saveWords (⟨i.words q k 1, i.pc + q', 0⟩ :: ms) s =
      runMoves i.saveWords ms ((i.operand q').save 0 (b.read k s) s).2 := by
  obtain ⟨e, he, -⟩ := ht
  exact runMoves_save he Nat.one_pos (words_of_get (hb.get hk))

/-- Some words of a block move down by one. -/
theorem runMoves_shift {a l : Nat} (h : (i.operand q).HasBlock b (a + l + 1) s) :
    ∃ s', (∀ ms, runMoves i.saveWords
        ((range' a l).map (fun k => ⟨i.words q (k + 1) 1, i.pc + q, k⟩) ++ ms) s =
        runMoves i.saveWords ms s') ∧
      ChangesOnly (fun x => ∃ j, a ≤ j ∧ j < a + l ∧ x ∈ b.cells j) s s' ∧
      ∀ k, a ≤ k → k < a + l → b.read k s' = b.read (k + 1) s := by
  induction l generalizing a s with
  | zero => exact ⟨s, fun _ => rfl, changesOnly_refl, fun k _ _ => by omega⟩
  | succ l ih =>
    have ha : a < a + (l + 1) + 1 := by omega
    have hread : i.words q (a + 1) 1 s = .ok [b.read (a + 1) s] := words_of_get (h.get (by omega))
    have hsaved := h.saved ha (b.read (a + 1) s)
    have hfirst := h.save_changesOnly ha (b.read (a + 1) s)
    rw [show a + (l + 1) + 1 = a + 1 + l + 1 by omega] at hsaved
    obtain ⟨s', hrun, hrest, hmoved⟩ := ih hsaved
    refine ⟨s', fun ms => ?_, ?_, fun k hk hlt => ?_⟩
    · rw [range'_succ, map_cons, cons_append, runMoves_save h ha hread, hrun]
    · refine (hfirst.mono fun x hx => ⟨a, Nat.le_refl a, by omega, hx⟩).trans
        (hrest.mono fun x hx => ?_)
      obtain ⟨j, hj, hlt, hx⟩ := hx
      exact ⟨j, by omega, by omega, hx⟩
    · rcases Nat.eq_or_lt_of_le hk with rfl | hk
      · rw [WordBlock.read_of_changes hrest, h.read_save ha, WordBlock.kept_read]
        rintro x hx ⟨j, hj, -, hmem⟩
        exact WordBlock.cells_disjoint (by omega) hx hmem
      · rw [hmoved k hk (by omega), h.read_save_of_ne ha (by omega)]

end

/-! ## The instructions -/

section

variable {b : WordBlock} {n len : Nat} {v : BitVec 16} {i : BodyInput}

theorem toInt_ofNat_count (h : n < 32768) : (BitVec.ofNat 16 n).toInt = n := by
  have hnat : (BitVec.ofNat 16 n).toNat = n := by
    rw [toNat_ofNat, mod_eq_of_lt (by omega)]
  rw [BitVec.toInt_eq_toNat_of_lt (by omega), hnat]

theorem toNat_ofNat_count (h : n < 32768) : (BitVec.ofNat 16 n).toNat = n := by
  rw [toNat_ofNat, mod_eq_of_lt (by omega)]

/-- The checks pass for a queue of size `n` with `len` values. -/
theorem pushSizes_eq (hn : 0 < n) (hn' : n < 32768) (hlen : len ≤ n)
    (hsize : (i.operand 10).get 0 i.store = .ok (BitVec.ofNat 16 n))
    (hcount : (i.operand 6).get 0 i.store = .ok (BitVec.ofNat 16 len)) :
    pushSizes i = .ok (n, len) := by
  change i.word 10 0 i.store = _ at hsize
  change i.word 6 0 i.store = _ at hcount
  simp only [pushSizes, hsize, hcount, bind, Except.bind, toInt_ofNat_count hn',
    toInt_ofNat_count (Nat.lt_of_le_of_lt hlen hn'), toNat_ofNat_count hn',
    toNat_ofNat_count (Nat.lt_of_le_of_lt hlen hn')]
  rw [if_neg (by omega)]
  rfl

theorem fifoLength_eq (hn : 0 < n) (hn' : n < 32768) (hlen : len ≤ n)
    (hsize : (i.operand 10).get 0 i.store = .ok (BitVec.ofNat 16 n))
    (hcount : (i.operand 2).get 0 i.store = .ok (BitVec.ofNat 16 len)) :
    fifoLength i = .ok len := by
  change i.word 10 0 i.store = _ at hsize
  change i.word 2 0 i.store = _ at hcount
  simp only [fifoLength, hsize, hcount, bind, Except.bind, toInt_ofNat_count hn',
    toInt_ofNat_count (Nat.lt_of_le_of_lt hlen hn'),
    toNat_ofNat_count (Nat.lt_of_le_of_lt hlen hn')]
  rw [if_neg (by omega), if_neg (by omega)]
  rfl

theorem runChecked_eq {β : Type} {checked : Except PlcErr β} {x : β}
    {run : β → Store → Except PlcErr Unit × Store} (hpower : getPowerFlow i.inPF = true)
    (h : checked = .ok x) :
    runChecked i checked run = ((run x i.store).1, i.inPF, (run x i.store).2) := by
  simp only [runChecked, hpower, if_true, h]

theorem runChecked_error {β : Type} {checked : Except PlcErr β} {e : PlcErr}
    {run : β → Store → Except PlcErr Unit × Store} (hpower : getPowerFlow i.inPF = true)
    (h : checked = .error e) : runChecked i checked run = (.error e, i.inPF, i.store) := by
  simp only [runChecked, hpower, if_true, h]

theorem setSm_setSm {s : Store} (k : Nat) (u v : Bool) :
    (s.setBit (.elem .SM) k u).setBit (.elem .SM) k v = s.setBit (.elem .SM) k v := by
  simp only [Store.setBit, Function.update_self, Function.update_idem]

theorem push_full (hpower : getPowerFlow i.inPF = true) (h : pushSizes i = .ok (n, n)) :
    runCiPushIns i = (.ok (), i.inPF, i.store.setBit (.elem .SM) 181 true) := by
  rw [runCiPushIns, runChecked_eq hpower h]
  simp only [Nat.lt_irrefl, if_false, if_true, setSm_setSm]

/-- A value is saved behind the others, and the count with it. -/
theorem push_room (hpower : getPowerFlow i.inPF = true) (h : pushSizes i = .ok (n, len))
    (hlen : len < n) (hb : (i.operand 6).HasBlock b (len + 2) i.store)
    (hv : (i.operand 2).get 0 (i.store.setBit (.elem .SM) 181 false) = .ok v) :
    ∃ s', runCiPushIns i = (.ok (), i.inPF, s') ∧ (i.operand 6).HasBlock b (len + 2) s' ∧
      b.read 0 s' = b.kept (BitVec.ofNat 16 (len + 1)) ∧ b.read (len + 1) s' = b.kept v ∧
      (∀ k, 1 ≤ k → k ≤ len → b.read k s' = b.read k i.store) ∧
      s'.getBit (.elem .SM) 181 = false := by
  have hb₁ := hb.setSm 181 false
  have hb₂ := hb₁.saved (k := len + 1) (by omega) v
  have hb₃ := hb₂.saved (k := 0) (by omega) (BitVec.ofNat 16 (len + 1))
  refine ⟨_, ?_, hb₃, hb₂.read_save (by omega) _, ?_, fun k hk hle => ?_, ?_⟩
  · rw [runCiPushIns, runChecked_eq hpower h]
    simp only [if_neg (show ¬ n < len by omega), if_neg (show len ≠ n by omega), pushMoves]
    rw [runMoves_save hb₁ (by omega) (words_of_get hv), runMoves_save hb₂ (by omega) rfl]
    rfl
  · rw [hb₂.read_save_of_ne (by omega) (by omega), hb₁.read_save (by omega)]
  · rw [hb₂.read_save_of_ne (by omega) (by omega), hb₁.read_save_of_ne (by omega) (by omega),
      hb.read_setSm]
  · rw [hb₂.sm_save (by omega), hb₁.sm_save (by omega), getBit_setBit_self]

theorem fifo_empty (hpower : getPowerFlow i.inPF = true) (h : fifoLength i = .ok 0) :
    runCiFifoIns i = (.ok (), i.inPF, i.store.setBit (.elem .SM) 180 true) := by
  rw [runCiFifoIns, runChecked_eq hpower h]
  simp only [if_true, setSm_setSm]

theorem lifo_empty (hpower : getPowerFlow i.inPF = true) (h : fifoLength i = .ok 0) :
    runCiLifoIns i = (.ok (), i.inPF, i.store.setBit (.elem .SM) 180 true) := by
  rw [runCiLifoIns, runChecked_eq hpower h]
  simp only [if_true, setSm_setSm]

/-- The first value is saved in the destination, the others move down, and the count with them. -/
theorem runMoves_fifo {s : Store} (hlen : 0 < len) (hb : (i.operand 2).HasBlock b (len + 1) s)
    (ht : (i.operand 6).Takes (i.operand 2) b 1 (len + 1) s) :
    ∃ s', runMoves i.saveWords (fifoMoves i len) s = (.ok (), s') ∧
      (i.operand 2).HasBlock b (len + 1) s' ∧
      b.read 0 s' = b.kept (BitVec.ofNat 16 (len - 1)) ∧
      (∀ k, 1 ≤ k → k < len → b.read k s' = b.read (k + 1) s) ∧
      (i.operand 6).get 0 s' = .ok (b.read 1 s) ∧
      s'.getBit (.elem .SM) n = s.getBit (.elem .SM) n := by
  obtain ⟨hb₁, hread₁, hsm₁⟩ := ht.saved (n := n) hb
  have hrange : 1 + (len - 1) + 1 = len + 1 := by omega
  obtain ⟨s₂, hrun, hchanges, hmoved⟩ := runMoves_shift (hrange.symm ▸ hb₁)
  have hb₂ := hb₁.of_changes hchanges fun c hc ⟨j, _, _, hmem⟩ =>
    WordOperand.not_mem_cells_of_register hb₁.block hb₁.plain hc hmem
  have hzero : 0 < len + 1 := succ_pos len
  have hcount := hb₂.save_changesOnly hzero (BitVec.ofNat 16 (len - 1))
  refine ⟨_, ?_, hb₂.saved hzero _, hb₂.read_save hzero _, fun k hk hlt => ?_, ?_, ?_⟩
  · rw [fifoMoves, cons_append, runMoves_take hb (by omega) ht, hrun,
      runMoves_save hb₂ hzero rfl]
    rfl
  · rw [hb₂.read_save_of_ne hzero (by omega), hmoved k hk (by omega), hread₁ (k + 1) (by omega)]
  · refine ht.get_of_changes ((hchanges.mono fun c hc => ?_).trans (hcount.mono fun c hc => ?_))
      fun c hc => hc
    · obtain ⟨j, -, hj, hmem⟩ := hc
      exact ⟨j, by omega, hmem⟩
    · exact ⟨0, hzero, hc⟩
  · rw [hb₂.sm_save hzero, ← hsm₁]
    refine BitArea.getBit_of_agree (hchanges.cells _ ?_)
    rintro ⟨j, -, -, hmem⟩
    exact WordOperand.sm_not_mem_cells hb₁.block hb₁.plain n hmem

/-- The last value is saved in the destination, and the count without it. -/
theorem runMoves_lifo {s : Store} (hlen : 0 < len) (hb : (i.operand 2).HasBlock b (len + 1) s)
    (ht : (i.operand 6).Takes (i.operand 2) b len len s) :
    ∃ s', runMoves i.saveWords (lifoMoves i len) s = (.ok (), s') ∧
      (i.operand 2).HasBlock b (len + 1) s' ∧
      b.read 0 s' = b.kept (BitVec.ofNat 16 (len - 1)) ∧
      (∀ k, 1 ≤ k → k < len → b.read k s' = b.read k s) ∧
      (i.operand 6).get 0 s' = .ok (b.read len s) ∧
      s'.getBit (.elem .SM) n = s.getBit (.elem .SM) n := by
  obtain ⟨hb₁, hread₁, hsm₁⟩ := ht.saved (n := n) hb
  have hzero : 0 < len + 1 := succ_pos len
  have hcount := hb₁.save_changesOnly hzero (BitVec.ofNat 16 (len - 1))
  refine ⟨_, ?_, hb₁.saved hzero _, hb₁.read_save hzero _, fun k hk hlt => ?_, ?_, ?_⟩
  · rw [lifoMoves, runMoves_take hb (by omega) ht, runMoves_save hb₁ hzero rfl]
    rfl
  · rw [hb₁.read_save_of_ne hzero (by omega), hread₁ k hlt]
  · exact ht.get_of_changes hcount fun c hc => ⟨0, hlen, hc⟩
  · rw [hb₁.sm_save hzero, hsm₁]

end

/-! ## Every instruction is right -/

section

variable {o : WordOperand} {b : WordBlock} {n : Nat} {zs : List (BitVec 16)} {s s' : Store}
variable {y : QueueCall × Op (BitVec 16)}

/-- A special bit is no part of an operand but of one with joined special bits. -/
theorem WordOperand.get_setSm (h : o.type ≠ some .knSm) (k j : Nat) (v : Bool) :
    o.get k (s.setBit (.elem .SM) j v) = o.get k s := by
  have hform : getWord o.ucode o.addr (s.setBit (.elem .SM) j v) o.level k 1 =
      getWord o.ucode o.addr s o.level k 1 := by
    rcases hform : (AddrType.ofCode (o.ucode.getPU8 (o.addr + 1))).bind (getWordTable o.level) with
      _ | _ | ⟨area, z⟩ | ⟨area, z, limit⟩
    · simp only [getWord, hform]
    · simp only [getWord, hform]
    · have harea : area ≠ .elem .SM := by
        rintro rfl
        obtain ⟨a, ha, htable⟩ := Option.bind_eq_some_iff.mp hform
        refine h (ha.trans ?_)
        cases a <;> cases htable
        rfl
      have hbits : (s.setBit (.elem .SM) j v).getBit area = s.getBit area := by
        funext m
        refine BitArea.getBit_of_agree (read_setBit (fun heq => harea ?_) v)
        cases area with
        | elem e =>
          injection heq with he
          rw [he]
        | lm layer => cases heq
      simp only [getWord, hform, hbits]
      rfl
    · simp only [getWord, hform]
      cases area <;> rfl
  rw [WordOperand.get, WordOperand.get, hform]

theorem WordOperand.Represents.count_eq (h : o.Represents n s zs) (hn : n < 32768) :
    o.count s = zs.length := by
  have hle := h.length_le
  rw [WordOperand.count, h.count]
  exact toNat_ofNat_count (by omega)

/-- What an instruction does that can do nothing. -/
theorem queueRight_of_refused {pf : BitVec 32} (hrep : o.Represents n s zs)
    (hsm : o.type ≠ some .knSm) (hrefused : Refused n zs y.2)
    (hrun : y.1.run s = (.ok (), pf, s.setBit (.elem .SM) y.1.ins.flag true)) :
    QueueRight o n zs s y := by
  have hstep : y.1.step s = s.setBit (.elem .SM) y.1.ins.flag true := by
    rw [QueueCall.step, hrun]
  refine ⟨by rw [hrun], ?_, fun _ => hstep, fun h => absurd hrefused h⟩
  rw [hstep, next_of_refused hrefused]
  refine ⟨hrep.length_le, ?_, fun k hk => ?_⟩
  · rw [WordOperand.get_setSm hsm]
    exact hrep.count
  · exact (WordOperand.get_setSm hsm (k + 1) _ _).trans (hrep.values k hk)

/-- What an instruction does that leaves the count and the values of the deque in the block. -/
theorem queueRight_of_done {pf : BitVec 32} (hrep : o.Represents n s zs)
    (hrefused : ¬ Refused n zs y.2) (hrun : y.1.run s = (.ok (), pf, s'))
    (hcount : o.get 0 s' = .ok (BitVec.ofNat 16 (next n zs y.2).length))
    (hvalues : Laid ok (fun k => o.get k s') (next n zs y.2))
    (hflag : s'.getBit (.elem .SM) y.1.ins.flag = false)
    (hout : ∀ v ∈ delivered zs y.2, y.1.other.get 0 s' = .ok v) : QueueRight o n zs s y := by
  have hstep : y.1.step s = s' := by rw [QueueCall.step, hrun]
  refine ⟨by rw [hrun], ?_, fun h => absurd h hrefused, fun _ => ?_⟩
  · rw [hstep]
    exact ⟨length_next_le hrep.length_le, hcount, hvalues⟩
  · rw [hstep]
    exact ⟨hflag, hout⟩

theorem WordOperand.Same.takes {o' d : WordOperand} {k m : Nat} (h : o'.Same o)
    (ht : d.Takes o b k m s) : d.Takes o' b k m s := by
  obtain ⟨e, he, hkept, hapart⟩ := ht
  refine ⟨e, he, hkept, ?_⟩
  rw [h.register]
  exact hapart

/-- A value that is pushed. -/
theorem push_right {i : BodyInput} {v : BitVec 16} (hn : 0 < n) (hn' : n < 32768)
    (hlegal : QueueLegal o n s (⟨.push, i⟩, .append v)) (hrep : o.Represents n s zs)
    (hreg : QueueRegular o n s ⟨.push, i⟩) : QueueRight o n zs s (⟨.push, i⟩, .append v) := by
  have hget (k : Nat) (t : Store) : o.get k t = (i.operand 6).get k t :=
    (hlegal.head.get k t).symm
  have hcount : (i.operand 6).get 0 s = .ok (BitVec.ofNat 16 zs.length) :=
    (hget 0 s).symm.trans hrep.count
  have hpower : getPowerFlow ({ i with store := s } : BodyInput).inPF = true := hlegal.power
  have hsizes : pushSizes { i with store := s } = .ok (n, zs.length) :=
    pushSizes_eq hn hn' hrep.length_le hlegal.size hcount
  rcases Nat.eq_or_lt_of_le hrep.length_le with hfull | hroom
  · rw [hfull] at hsizes
    exact queueRight_of_refused hrep hreg.1 (Nat.le_of_eq hfull.symm)
      (push_full hpower hsizes)
  · have hblock := hreg.2
    simp only [hrep.count_eq hn'] at hblock
    obtain ⟨b, w, hb, hkept, hkeptv, hw, hw'⟩ := hblock hroom
    obtain rfl : w = v := hlegal.asks.2 w hw
    have hhead : (i.operand 6).HasBlock b (zs.length + 2) s := hlegal.head.hasBlock hb
    obtain ⟨s', hrun, hb', hzero, hlast, hrest, hflag⟩ :=
      push_room hpower hsizes hroom hhead hw'
    change (i.operand 6).HasBlock b (zs.length + 2) s' at hb'
    have hrefused : ¬ n ≤ zs.length := Nat.not_le.mpr hroom
    refine queueRight_of_done hrep hrefused hrun ?_ ?_ hflag fun x hx => by cases hx
    · rw [BoundedDeque.next, if_neg hrefused, length_append, length_singleton, hget,
        hb'.get (by omega), hzero, hkept]
    · rw [BoundedDeque.next, if_neg hrefused]
      refine hrep.values.append (fun k hk hle => ?_) ?_
      · rw [hget, hb'.get (by omega), hrest k hk hle, hb.get (by omega)]
      · rw [hget, hb'.get (by omega), hlast, hkeptv]

/-- A value that is taken out, be it the oldest or the newest: what is left for each of the two. -/
theorem take_right {x : QueueCall} {op : Op (BitVec 16)} {pf : BitVec 32} (hn' : n < 32768)
    (hhead : x.head.Same o) (hrep : o.Represents n s zs)
    (hrefused : ¬ Refused n zs op) (hb : o.HasBlock b (zs.length + 1) s)
    (hrun : x.run s = (.ok (), pf, s')) (hb' : x.head.HasBlock b (zs.length + 1) s')
    (hzero : b.read 0 s' = b.kept (BitVec.ofNat 16 (zs.length - 1)))
    (hlen : (next n zs op).length = zs.length - 1)
    (hvalues : Laid ok (fun k => o.get k s') (next n zs op))
    (hflag : s'.getBit (.elem .SM) x.ins.flag = false)
    (hout : ∀ v ∈ delivered zs op, x.other.get 0 s' = .ok v) : QueueRight o n zs s (x, op) := by
  refine queueRight_of_done hrep hrefused hrun ?_ hvalues hflag hout
  have hle := hrep.length_le
  have hcount : b.read 0 s = BitVec.ofNat 16 zs.length := by
    have hget := hrep.count
    rw [hb.get (succ_pos _)] at hget
    exact ok.inj hget
  have hkept : b.kept (BitVec.ofNat 16 zs.length) = BitVec.ofNat 16 zs.length := by
    rw [← hcount, WordBlock.kept_read]
  rw [← hhead.get, hb'.get (succ_pos _), hzero,
    WordBlock.kept_ofNat hkept (by omega) (sub_le _ _), hlen]

theorem fifo_right {i : BodyInput} (hn : 0 < n) (hn' : n < 32768)
    (hlegal : QueueLegal o n s (⟨.fifo, i⟩, .oldest)) (hrep : o.Represents n s zs)
    (hreg : QueueRegular o n s ⟨.fifo, i⟩) : QueueRight o n zs s (⟨.fifo, i⟩, .oldest) := by
  have hget (k : Nat) (t : Store) : o.get k t = (i.operand 2).get k t :=
    (hlegal.head.get k t).symm
  have hpower : getPowerFlow ({ i with store := s } : BodyInput).inPF = true := hlegal.power
  have hlength : fifoLength { i with store := s } = .ok zs.length :=
    fifoLength_eq hn hn' hrep.length_le hlegal.size ((hget 0 s).symm.trans hrep.count)
  by_cases hempty : zs = []
  · rw [hempty] at hlength
    exact queueRight_of_refused hrep hreg.1 hempty (fifo_empty hpower hlength)
  · have hpos : 0 < zs.length := length_pos_iff.mpr hempty
    have hblock := hreg.2
    simp only [hrep.count_eq hn'] at hblock
    obtain ⟨b, hb, ht⟩ := hblock hpos
    have hhead : (i.operand 2).HasBlock b (zs.length + 1) s := hlegal.head.hasBlock hb
    have htakes : (i.operand 6).Takes (i.operand 2) b 1 (zs.length + 1) s := hlegal.head.takes ht
    obtain ⟨s', hmoves, hb', hzero, hmoved, hout, hflag⟩ :=
      runMoves_fifo (i := { i with store := s }) (n := 180) hpos (hhead.setSm 180 false)
        (htakes.setSm hhead 180 false)
    change (i.operand 2).HasBlock b (zs.length + 1) s' at hb'
    have hrun : QueueCall.run ⟨.fifo, i⟩ s = (.ok (), i.inPF, s') := by
      change runCiFifoIns { i with store := s } = _
      rw [runCiFifoIns, runChecked_eq hpower hlength]
      simp only [if_neg (Nat.ne_of_gt hpos), hmoves]
    refine take_right hn' hlegal.head hrep hempty hb hrun hb' hzero length_tail ?_
      (hflag.trans (getBit_setBit_self _ _ _)) fun v hv => ?_
    · refine hrep.values.tail fun k hk hlt => ?_
      rw [hget, hb'.get (by omega), hmoved k hk hlt, hhead.read_setSm, hget,
        hhead.get (by omega)]
    · have hfirst : o.get 1 s = .ok v := by
        obtain ⟨w, ws, rfl⟩ := exists_cons_of_ne_nil hempty
        obtain rfl : v = w := by simpa [delivered] using hv
        exact hrep.values 0 hpos
      rw [hget, hhead.get (by omega)] at hfirst
      rw [hhead.read_setSm] at hout
      exact hout.trans hfirst

theorem lifo_right {i : BodyInput} (hn : 0 < n) (hn' : n < 32768)
    (hlegal : QueueLegal o n s (⟨.lifo, i⟩, .newest)) (hrep : o.Represents n s zs)
    (hreg : QueueRegular o n s ⟨.lifo, i⟩) : QueueRight o n zs s (⟨.lifo, i⟩, .newest) := by
  have hget (k : Nat) (t : Store) : o.get k t = (i.operand 2).get k t :=
    (hlegal.head.get k t).symm
  have hpower : getPowerFlow ({ i with store := s } : BodyInput).inPF = true := hlegal.power
  have hlength : fifoLength { i with store := s } = .ok zs.length :=
    fifoLength_eq hn hn' hrep.length_le hlegal.size ((hget 0 s).symm.trans hrep.count)
  by_cases hempty : zs = []
  · rw [hempty] at hlength
    exact queueRight_of_refused hrep hreg.1 hempty (lifo_empty hpower hlength)
  · have hpos : 0 < zs.length := length_pos_iff.mpr hempty
    have hblock := hreg.2
    simp only [hrep.count_eq hn'] at hblock
    obtain ⟨b, hb, ht⟩ := hblock hpos
    have hhead : (i.operand 2).HasBlock b (zs.length + 1) s := hlegal.head.hasBlock hb
    have htakes : (i.operand 6).Takes (i.operand 2) b zs.length zs.length s :=
      hlegal.head.takes ht
    obtain ⟨s', hmoves, hb', hzero, hkeep, hout, hflag⟩ :=
      runMoves_lifo (i := { i with store := s }) (n := 180) hpos (hhead.setSm 180 false)
        (htakes.setSm hhead 180 false)
    change (i.operand 2).HasBlock b (zs.length + 1) s' at hb'
    have hrun : QueueCall.run ⟨.lifo, i⟩ s = (.ok (), i.inPF, s') := by
      change runCiLifoIns { i with store := s } = _
      rw [runCiLifoIns, runChecked_eq hpower hlength]
      simp only [if_neg (Nat.ne_of_gt hpos), hmoves]
    refine take_right hn' hlegal.head hrep hempty hb hrun hb' hzero length_dropLast ?_
      (hflag.trans (getBit_setBit_self _ _ _)) fun v hv => ?_
    · refine hrep.values.dropLast fun k hk hlt => ?_
      rw [hget, hb'.get (by omega), hkeep k hk hlt, hhead.read_setSm, hget,
        hhead.get (by omega)]
    · have hlast : o.get zs.length s = .ok v := by
        obtain ⟨ws, w, rfl⟩ := eq_nil_or_concat zs |>.resolve_left hempty
        obtain rfl : v = w := by simpa [delivered] using hv
        have hvalue := hrep.values ws.length (by simp)
        simpa using hvalue
      rw [hget, hhead.get (by omega)] at hlast
      rw [hhead.read_setSm] at hout
      exact hout.trans hlast

/-- Where an instruction is regular it is right. -/
theorem queueRight_of_regular (hn : 0 < n) (hn' : n < 32768) (hlegal : QueueLegal o n s y)
    (hrep : o.Represents n s zs) (hreg : QueueRegular o n s y.1) : QueueRight o n zs s y := by
  obtain ⟨⟨ins, i⟩, op⟩ := y
  have hasks := hlegal.asks
  cases op with
  | append v =>
    obtain rfl : ins = .push := hasks.1
    exact push_right hn hn' hlegal hrep hreg
  | oldest =>
    obtain rfl : ins = .fifo := hasks
    exact fifo_right hn hn' hlegal hrep hreg
  | newest =>
    obtain rfl : ins = .lifo := hasks
    exact lifo_right hn hn' hlegal hrep hreg

end

/-! ## Runs -/

section

variable {o : WordOperand} {n : Nat} {s t : Store} {xs : List (QueueCall × Op (BitVec 16))}

/-- In a run of regular instructions the block holds what the deque does. -/
theorem represents_of_run (hn : 0 < n) (hn' : n < 32768) (hs : o.Represents n s [])
    (h : EventRun (o.Kept n) (fun s y => y.1.step s)
      (fun s y => QueueLegal o n s y ∧ QueueRegular o n s y.1) s xs t) :
    o.Represents n t ((xs.map Prod.snd).foldl (next n) []) := by
  induction h with
  | start => exact hs
  | idle _ ht ih =>
    refine ⟨ih.length_le, (ht 0 (Nat.zero_le n)).trans ih.count, fun k hk => ?_⟩
    exact (ht (k + 1) (Nat.le_trans hk ih.length_le)).trans (ih.values k hk)
  | event y _ hy ih =>
    rw [map_append, foldl_append]
    exact (queueRight_of_regular hn hn' hy.1 ih hy.2).2.1

/-- From a count of zero, and while every instruction is regular, the block is a deque: it holds the
values that one would hold, and the next instruction does what the deque does. -/
theorem queue_refines_deque (hn : 0 < n) (hn' : n < 32768) (hs : o.Represents n s [])
    (h : EventRun (o.Kept n) (fun s y => y.1.step s)
      (fun s y => QueueLegal o n s y ∧ QueueRegular o n s y.1) s xs t) :
    o.Represents n t ((xs.map Prod.snd).foldl (next n) []) ∧
    ∀ y, QueueLegal o n t y → QueueRegular o n t y.1 →
      QueueRight o n ((xs.map Prod.snd).foldl (next n) []) t y :=
  ⟨represents_of_run hn hn' hs h, fun _ hlegal hreg =>
    queueRight_of_regular hn hn' hlegal (represents_of_run hn hn' hs h) hreg⟩

end

/-- An instruction on a queue in `V0` or `D0`, of the size one: `PUSH K5` and the operand. -/
def pushFive (type : UInt8) : QueueCall where
  ins := .push
  input :=
    { ucode := [0x00, 0x00, 0x00, 0xFF, 0x05, 0x00, 0x00, type, 0x00, 0x00, 0x00, 0xFF, 0x01, 0x00]
      pc := 0
      level := 0
      now := 0
      inPF := 1
      sfc := Plc.off.sfc
      store := Store.off }

theorem pushFive_legal (type : UInt8) :
    QueueLegal (pushFive type).head 1 Store.off (pushFive type, .append 5) where
  power := getPowerFlow_one
  head := ⟨rfl, rfl, rfl, rfl⟩
  size := rfl
  asks := by
    refine ⟨rfl, fun w hw => ?_⟩
    exact (ok.inj hw).symm

/-- With the queue in `D0`, the run of this one instruction leaves the deque of the five. -/
theorem queue_refines_deque_d0 :
    (pushFive 0x11).head.Represents 1 ((pushFive 0x11).step Store.off) [5] := by
  have hs : (pushFive 0x11).head.Represents 1 Store.off [] :=
    ⟨Nat.zero_le 1, by decide, fun k hk => absurd hk (Nat.not_lt_zero k)⟩
  have hblock : (pushFive 0x11).head.HasBlock (.elems (.elem .D) 8000 0) 2 Store.off :=
    ⟨by decide, by decide, by decide⟩
  have hregular : QueueRegular (pushFive 0x11).head 1 Store.off (pushFive 0x11) :=
    ⟨by decide, fun _ => ⟨_, 5, hblock, rfl, rfl, by decide, by decide⟩⟩
  exact (queue_refines_deque Nat.one_pos (by decide) hs
    (.event (pushFive 0x11, .append 5) .start ⟨pushFive_legal 0x11, hregular⟩)).1

/-- With the queue in `V0` the count stays zero. -/
theorem queue_not_deque_v0 : ¬ ∀ (o : WordOperand) (n : Nat) (s t : Store)
    (xs : List (QueueCall × Op (BitVec 16))), 0 < n → n < 32768 → o.Represents n s [] →
    EventRun (o.Kept n) (fun s y => y.1.step s) (QueueLegal o n) s xs t →
    o.Represents n t ((xs.map Prod.snd).foldl (next n) []) := by
  intro h
  have hs : (pushFive 0x16).head.Represents 1 Store.off [] :=
    ⟨Nat.zero_le 1, by decide, fun k hk => absurd hk (Nat.not_lt_zero k)⟩
  have hrep := h (pushFive 0x16).head 1 Store.off _ _ Nat.one_pos (by decide) hs
    (.event (pushFive 0x16, .append 5) .start (pushFive_legal 0x16))
  have hcount : (pushFive 0x16).head.get 0 ((pushFive 0x16).step Store.off) = .ok 1 := hrep.count
  exact absurd hcount (by decide)

end Kalyke
