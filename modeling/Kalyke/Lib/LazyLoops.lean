-- SUMMARY: Counted loops on a stack from which loops at their end are removed late.
import Mathlib.Tactic.Common

/-!
# Lazily Popped Loops

A machine for counted loops keeps a stack of the loops it has entered, with their start and the
passes that remain. A loop at its end is not removed but left on the stack with the count zero; the
next `next` that finds such an entry on top removes it, and only one. The machine executes a
structured program as written exactly if no body it executes has entered more than one loop by its
end, and the entries left behind do not fill up the stack.
-/

namespace LazyLoops

open List

/-- The sizes of a machine: the lengths of the two loop instructions, the modulus of the counters,
and the room on the stack. -/
structure Format where
  enterLen : Nat
  nextLen : Nat
  modulus : Nat
  room : Nat
  enterLen_pos : 0 < enterLen
  nextLen_pos : 0 < nextLen

/-- An instruction, as far as the loops are concerned. -/
inductive Ins where
  | line (len : Nat)
  | enter (cnt target : Nat)
  | next
deriving DecidableEq, Repr

/-- The program counter, and the start and count of the loops entered, the last one first. -/
structure State where
  pc : Nat
  stack : List (Nat × Nat)
deriving DecidableEq, Repr

variable (F : Format) (code : Nat → Option Ins)

/-- `next` at `p` with a given loop on top. -/
def nextTop (p : Nat) (l : Nat × Nat) (rest : List (Nat × Nat)) : State :=
  if l.2 = 1 then ⟨p + F.nextLen, (l.1, 0) :: rest⟩
  else ⟨l.1 + F.enterLen, (l.1, (l.2 + (F.modulus - 1)) % F.modulus) :: rest⟩

def next (p : Nat) : List (Nat × Nat) → State
  | [] => ⟨p + F.nextLen, []⟩
  | l :: rest =>
    if l.2 = 0 then
      match rest with
      | [] => ⟨p + F.nextLen, []⟩
      | l' :: rest' => nextTop F p l' rest'
    else nextTop F p l rest

/-- One step, none if the stack is accessed out of bounds. -/
def step (s : State) : Option State :=
  match code s.pc with
  | some (.line len) => some ⟨s.pc + len, s.stack⟩
  | some (.enter cnt target) =>
    if s.stack.length < F.room then
      some (if 0 < cnt then ⟨s.pc + F.enterLen, (s.pc, cnt) :: s.stack⟩ else ⟨target, s.stack⟩)
    else none
  | some .next => if s.stack.length ≤ F.room then some (next F s.pc s.stack) else none
  | none => none

/-- The machine comes from one state to another over the instructions at the given addresses. -/
inductive Follows : State → List Nat → State → Prop where
  | nil (s : State) : Follows s [] s
  | cons {s a s' : State} {tr : List Nat} (hstep : step F code s = some a)
      (hrest : Follows a tr s') : Follows s (s.pc :: tr) s'

/-- The machine comes to address `e` over the instructions at the given addresses. -/
def Reaches (s : State) (tr : List Nat) (e : Nat) : Prop := ∃ s', Follows F code s tr s' ∧ s'.pc = e

/-! ## Structured programs -/

/-- A structured program: instructions and counted loops one after the other. -/
inductive Prog where
  | nil
  | line (len : Nat) (rest : Prog)
  | loop (cnt : Nat) (body rest : Prog)
deriving DecidableEq, Repr

namespace Prog

/-- The length of a program's code. -/
def size : Prog → Nat
  | nil => 0
  | line len rest => len + rest.size
  | loop _ body rest => F.enterLen + body.size + F.nextLen + rest.size

/-- The addresses of the instructions that a structured execution passes over, in order: the body of
a loop with count `n` is executed `n` times, each time up to and including its `next`. -/
def trace : Nat → Prog → List Nat
  | _, nil => []
  | p, line len rest => p :: rest.trace (p + len)
  | p, loop cnt body rest =>
    p :: ((replicate cnt
        (body.trace (p + F.enterLen) ++ [p + F.enterLen + body.size F])).flatten ++
      rest.trace (p + F.enterLen + body.size F + F.nextLen))

/-- The program stands at `p`. -/
def Placed : Nat → Prog → Prop
  | _, nil => True
  | p, line len rest => code p = some (.line len) ∧ rest.Placed (p + len)
  | p, loop cnt body rest =>
    cnt < F.modulus ∧
    code p = some (.enter cnt (p + F.enterLen + body.size F + F.nextLen)) ∧
    body.Placed (p + F.enterLen) ∧ code (p + F.enterLen + body.size F) = some .next ∧
    rest.Placed (p + F.enterLen + body.size F + F.nextLen)

/-- The loops of the outermost level that are entered. -/
def entered : Prog → Nat
  | nil => 0
  | line _ rest => rest.entered
  | loop cnt _ rest => (if cnt = 0 then 0 else 1) + rest.entered

/-- With `d` entries on the stack at its start, the program finds room for each of its loops, and no
body that is executed enters more than one loop of its own. -/
def Fits : Nat → Prog → Prop
  | _, nil => True
  | d, line _ rest => rest.Fits d
  | d, loop cnt body rest =>
    d < F.room ∧ (0 < cnt → body.entered ≤ 1 ∧ body.Fits (d + 1)) ∧
      rest.Fits (d + if cnt = 0 then 0 else 1)

instance decidableFits : (d : Nat) → (prog : Prog) → Decidable (prog.Fits F d)
  | _, nil => inferInstanceAs (Decidable True)
  | d, line _ rest => decidableFits d rest
  | d, loop cnt body rest =>
    have := decidableFits (d + 1) body
    have := decidableFits (d + if cnt = 0 then 0 else 1) rest
    inferInstanceAs (Decidable (_ ∧ _ ∧ _))

end Prog

/-! ## Runs -/

variable {F code} {s a s' : State} {tr tr' : List Nat} {p q e : Nat}

theorem Follows.trans (h : Follows F code s tr a) (h' : Follows F code a tr' s') :
    Follows F code s (tr ++ tr') s' := by
  induction h with
  | nil _ => exact h'
  | cons hstep _ ih => exact .cons hstep (ih h')

theorem follows_cons_iff (hstep : step F code s = some a) :
    Follows F code s (s.pc :: tr) s' ↔ Follows F code a tr s' := by
  constructor
  · intro h
    cases h with
    | cons hstep' hrest =>
      obtain rfl := Option.some.inj (hstep.symm.trans hstep')
      exact hrest
  · exact fun h => .cons hstep h

theorem reaches_cons_iff (hstep : step F code s = some a) :
    Reaches F code s (s.pc :: tr) e ↔ Reaches F code a tr e :=
  exists_congr fun _ => and_congr_left' (follows_cons_iff hstep)

/-- The machine is deterministic: a run that follows on a given one goes on where it ends. -/
theorem Follows.reaches_append_iff (h : Follows F code s tr a) :
    Reaches F code s (tr ++ tr') e ↔ Reaches F code a tr' e := by
  induction h with
  | nil _ => exact Iff.rfl
  | cons hstep _ ih => exact (reaches_cons_iff hstep).trans ih

theorem not_reaches_of_step (hstep : step F code s = none) : ¬ Reaches F code s (q :: tr) e := by
  rintro ⟨s', h, -⟩
  cases h with
  | cons hstep' _ => exact absurd (hstep.symm.trans hstep') (by simp)

def StartsAt (q : Nat) (tr : List Nat) (e : Nat) : Prop := tr.headD e = q

theorem Reaches.pc_eq (h : Reaches F code s tr e) (hstart : StartsAt q tr e) : s.pc = q := by
  obtain ⟨s', h, rfl⟩ := h
  cases h with
  | nil _ => exact hstart
  | cons _ _ => exact hstart

theorem Prog.startsAt_trace (prog : Prog) (h : StartsAt (p + prog.size F) tr e) :
    StartsAt p (prog.trace F p ++ tr) e := by
  cases prog with
  | nil => exact h
  | line len rest => exact rfl
  | loop cnt body rest => exact rfl

/-- A structured execution stays on the code of the program. -/
theorem Prog.code_of_mem_trace (prog : Prog) (hplaced : prog.Placed F code p) :
    ∀ q ∈ prog.trace F p, (code q).isSome := by
  induction prog generalizing p with
  | nil => simp [Prog.trace]
  | line len rest ih =>
    obtain ⟨hcode, hrest⟩ := hplaced
    intro q hq
    rcases mem_cons.mp hq with rfl | hq
    · rw [hcode]; rfl
    · exact ih hrest q hq
  | loop cnt body rest ihbody ihrest =>
    obtain ⟨-, hcode, hbody, hnext, hrest⟩ := hplaced
    intro q hq
    rcases mem_cons.mp hq with rfl | hq
    · rw [hcode]; rfl
    rcases mem_append.mp hq with hq | hq
    · obtain ⟨pass, hpass, hq⟩ := mem_flatten.mp hq
      rw [eq_of_mem_replicate hpass] at hq
      rcases mem_append.mp hq with hq | hq
      · exact ihbody hbody q hq
      · rw [mem_singleton.mp hq, hnext]; rfl
    · exact ihrest hrest q hq

/-! ## Programs that fit -/

variable {k ds : List (Nat × Nat)} {d : Nat}

/-- Entries of loops that lie between `p` and `q` and have come to their end. -/
def Ended (F : Format) (p q : Nat) (ds : List (Nat × Nat)) : Prop :=
  ∀ l ∈ ds, l.2 = 0 ∧ p ≤ l.1 ∧ l.1 + F.enterLen + F.nextLen ≤ q

theorem Ended.mono {p' q' : Nat} (h : Ended F p q ds) (hp : p' ≤ p) (hq : q ≤ q') :
    Ended F p' q' ds := fun l hl =>
  ⟨(h l hl).1, Nat.le_trans hp (h l hl).2.1, Nat.le_trans (h l hl).2.2 hq⟩

/-- A program that fits does not push more entries than there is room for. -/
theorem Prog.Fits.le_room {prog : Prog} (h : prog.Fits F d) (hd : d ≤ F.room) :
    d + prog.entered ≤ F.room := by
  induction prog generalizing d with
  | nil => exact hd
  | line len rest ih => exact ih h hd
  | loop cnt body rest _ ih =>
    obtain ⟨hlt, -, hrest⟩ := h
    have hle := ih hrest (by split <;> omega)
    rw [Prog.entered]
    omega

/-- `next` finds the loop it belongs to under at most one entry. -/
theorem next_of_ended {l : Nat × Nat} (hlen : ds.length ≤ 1) (hds : Ended F p q ds)
    (hl : l.2 ≠ 0) : next F e (ds ++ l :: k) = nextTop F e l k := by
  match ds with
  | [] => simp [next, hl]
  | [x] => simp [next, (hds x (by simp)).1]
  | _ :: _ :: _ => simp at hlen

/-- With more than one entry above it, `next` goes back into another loop. -/
theorem next_of_two_ended (hlen : 2 ≤ ds.length) (hds : Ended F p q ds) :
    ∃ l ∈ ds, (next F e (ds ++ k)).pc = l.1 + F.enterLen := by
  match ds with
  | [] | [_] => simp at hlen
  | x :: y :: rest =>
    have hx := (hds x (by simp)).1
    have hy := (hds y (by simp)).1
    exact ⟨y, by simp, by simp [next, nextTop, hx, hy]⟩

theorem step_next (hcode : code p = some .next) (hroom : k.length ≤ F.room) :
    step F code ⟨p, k⟩ = some (next F p k) := by
  rw [step, hcode]
  exact if_pos hroom

theorem step_enter {cnt target : Nat} (hcode : code p = some (.enter cnt target))
    (hroom : k.length < F.room) :
    step F code ⟨p, k⟩ =
      some (if 0 < cnt then ⟨p + F.enterLen, (p, cnt) :: k⟩ else ⟨target, k⟩) := by
  rw [step, hcode]
  exact if_pos hroom

/-- The passes of a loop whose body enters at most one loop. By induction on the passes that remain
after the current one. -/
theorem follows_passes {body : Prog} (n : Nat) (hn : n + 1 < F.modulus)
    (hbody : ∀ cnt, ∃ ds, ds.length = body.entered ∧
      Ended F (p + F.enterLen) (p + F.enterLen + body.size F) ds ∧
      Follows F code ⟨p + F.enterLen, (p, cnt) :: k⟩ (body.trace F (p + F.enterLen))
        ⟨p + F.enterLen + body.size F, ds ++ (p, cnt) :: k⟩)
    (hroom : k.length < F.room) (hfits : body.Fits F (k.length + 1)) (hone : body.entered ≤ 1)
    (hcode : code (p + F.enterLen + body.size F) = some .next) :
    Follows F code ⟨p + F.enterLen, (p, n + 1) :: k⟩
      (replicate (n + 1) (body.trace F (p + F.enterLen) ++
        [p + F.enterLen + body.size F])).flatten
      ⟨p + F.enterLen + body.size F + F.nextLen, (p, 0) :: k⟩ := by
  have hle := hfits.le_room hroom
  have hpass (cnt : Nat) (hcnt : cnt ≠ 0) : Follows F code ⟨p + F.enterLen, (p, cnt) :: k⟩
      (body.trace F (p + F.enterLen) ++ [p + F.enterLen + body.size F])
      (nextTop F (p + F.enterLen + body.size F) (p, cnt) k) := by
    obtain ⟨ds, hlen, hds, hfollows⟩ := hbody cnt
    have hlength : (ds ++ (p, cnt) :: k).length ≤ F.room := by
      simp only [length_append, length_cons]
      omega
    have hstep := step_next hcode hlength
    rw [next_of_ended (l := (p, cnt)) (by omega) hds hcnt] at hstep
    exact hfollows.trans (.cons hstep (.nil _))
  induction n with
  | zero => simpa [nextTop] using hpass 1 Nat.one_ne_zero
  | succ n ih =>
    have hdec : (n + 2 + (F.modulus - 1)) % F.modulus = n + 1 := by
      rw [show n + 2 + (F.modulus - 1) = n + 1 + F.modulus by omega, Nat.add_mod_right]
      exact Nat.mod_eq_of_lt (by omega)
    have hfirst := hpass (n + 2) (Nat.succ_ne_zero _)
    rw [nextTop, hdec] at hfirst
    exact hfirst.trans (ih (by omega))

/-- A program that fits is executed as written and leaves one entry for each loop entered. -/
theorem Prog.follows (prog : Prog) (hplaced : prog.Placed F code p)
    (hfits : prog.Fits F k.length) :
    ∃ ds, ds.length = prog.entered ∧ Ended F p (p + prog.size F) ds ∧
      Follows F code ⟨p, k⟩ (prog.trace F p) ⟨p + prog.size F, ds ++ k⟩ := by
  induction prog generalizing p k with
  | nil => exact ⟨[], rfl, by simp [Ended], .nil _⟩
  | line len rest ih =>
    obtain ⟨hcode, hrest⟩ := hplaced
    obtain ⟨ds, hlen, hds, hfollows⟩ := ih hrest hfits
    have hstep : step F code ⟨p, k⟩ = some ⟨p + len, k⟩ := by rw [step, hcode]
    rw [Prog.size, ← Nat.add_assoc]
    exact ⟨ds, hlen, hds.mono (by omega) (Nat.le_refl _), .cons hstep hfollows⟩
  | loop cnt body rest ihbody ihrest =>
    obtain ⟨hcnt, hcode, hbody, hnext, hrest⟩ := hplaced
    obtain ⟨hroom, hfitsBody, hfitsRest⟩ := hfits
    have hstep := step_enter hcode hroom
    have hend : p + (F.enterLen + body.size F + F.nextLen + rest.size F) =
        p + F.enterLen + body.size F + F.nextLen + rest.size F := by omega
    rw [Prog.size, hend, Prog.entered]
    cases cnt with
    | zero =>
      obtain ⟨ds, hlen, hds, hfollows⟩ := ihrest hrest hfitsRest
      refine ⟨ds, by simpa using hlen, hds.mono (by omega) (Nat.le_refl _), ?_⟩
      exact .cons hstep hfollows
    | succ n =>
      obtain ⟨hone, hfits⟩ := hfitsBody (Nat.succ_pos n)
      have hpasses := follows_passes n hcnt (fun cnt => ihbody (k := (p, cnt) :: k) hbody hfits)
        hroom hfits hone hnext
      obtain ⟨ds, hlen, hds, hfollows⟩ := ihrest (k := (p, 0) :: k) hrest hfitsRest
      refine ⟨ds ++ [(p, 0)], by simp [hlen]; omega, ?_, ?_⟩
      · intro l hl
        rcases mem_append.mp hl with hl | hl
        · exact hds.mono (by omega) (Nat.le_refl _) l hl
        · obtain rfl := mem_singleton.mp hl
          exact ⟨rfl, Nat.le_refl _, by simp only; omega⟩
      · rw [append_assoc]
        exact .cons hstep (hpasses.trans hfollows)

/-! ## Programs that do not fit -/

/-- After a body that has entered more than one loop, `next` goes neither to the start of the body
nor on. -/
theorem not_reaches_of_two_ended (hlen : 2 ≤ ds.length) (hds : Ended F (p + F.enterLen) q ds)
    (hcode : code q = some .next)
    (hstart : StartsAt (p + F.enterLen) tr e ∨ StartsAt (q + F.nextLen) tr e) :
    ¬ Reaches F code ⟨q, ds ++ k⟩ (q :: tr) e := by
  intro h
  by_cases hroom : (ds ++ k).length ≤ F.room
  · obtain ⟨l, hl, hpc⟩ := next_of_two_ended (e := q) (k := k) hlen hds
    obtain ⟨-, hle, hlt⟩ := hds l hl
    have henter := F.enterLen_pos
    have hnext := F.nextLen_pos
    have hreaches := (reaches_cons_iff (step_next hcode hroom)).mp h
    rcases hstart with hstart | hstart
    · have := hreaches.pc_eq hstart
      omega
    · have := hreaches.pc_eq hstart
      omega
  · refine not_reaches_of_step ?_ h
    rw [step, hcode]
    exact if_neg hroom

/-- A program that does not fit is not executed as written, whatever follows on it. -/
theorem Prog.not_reaches (prog : Prog) (hplaced : prog.Placed F code p)
    (hfits : ¬ prog.Fits F k.length) (hstart : StartsAt (p + prog.size F) tr e) :
    ¬ Reaches F code ⟨p, k⟩ (prog.trace F p ++ tr) e := by
  induction prog generalizing p k tr with
  | nil => exact absurd trivial hfits
  | line len rest ih =>
    obtain ⟨hcode, hrest⟩ := hplaced
    have hstep : step F code ⟨p, k⟩ = some ⟨p + len, k⟩ := by rw [step, hcode]
    rw [Prog.size, ← Nat.add_assoc] at hstart
    exact fun h => ih hrest hfits hstart ((reaches_cons_iff hstep).mp h)
  | loop cnt body rest ihbody ihrest =>
    obtain ⟨hcnt, hcode, hbody, hnext, hrest⟩ := hplaced
    have hend : p + (F.enterLen + body.size F + F.nextLen + rest.size F) =
        p + F.enterLen + body.size F + F.nextLen + rest.size F := by omega
    rw [Prog.size, hend] at hstart
    rw [Prog.trace, cons_append, append_assoc]
    have hgoes := rest.startsAt_trace (p := p + F.enterLen + body.size F + F.nextLen) hstart
    intro h
    by_cases hroom : k.length < F.room
    swap
    · refine not_reaches_of_step ?_ h
      rw [step, hcode]
      exact if_neg hroom
    have hstep := step_enter hcode hroom
    have h := (reaches_cons_iff hstep).mp h
    cases cnt with
    | zero =>
      refine ihrest hrest (fun hrestFits => hfits ⟨hroom, ?_, hrestFits⟩) hstart h
      exact fun hpos => absurd hpos (Nat.lt_irrefl 0)
    | succ n =>
      -- what follows on the first pass of the body starts at the body or behind the loop
      have hback : StartsAt (p + F.enterLen)
            ((replicate n
                (body.trace F (p + F.enterLen) ++ [p + F.enterLen + body.size F])).flatten ++
              (rest.trace F (p + F.enterLen + body.size F + F.nextLen) ++ tr)) e ∨
          StartsAt (p + F.enterLen + body.size F + F.nextLen)
            ((replicate n
                (body.trace F (p + F.enterLen) ++ [p + F.enterLen + body.size F])).flatten ++
              (rest.trace F (p + F.enterLen + body.size F + F.nextLen) ++ tr)) e := by
        cases n with
        | zero => exact .inr hgoes
        | succ n =>
          rw [replicate_succ, flatten_cons, append_assoc, append_assoc]
          exact .inl (body.startsAt_trace rfl)
      by_cases hfitsBody : body.Fits F (k.length + 1)
      · by_cases hone : body.entered ≤ 1
        · have hpasses := follows_passes n hcnt
            (fun cnt => body.follows (k := (p, cnt) :: k) hbody hfitsBody) hroom hfitsBody hone
            hnext
          refine ihrest (k := (p, 0) :: k) hrest (fun hrestFits => ?_) hstart
            (hpasses.reaches_append_iff.mp h)
          exact hfits ⟨hroom, fun _ => ⟨hone, hfitsBody⟩, hrestFits⟩
        · obtain ⟨ds, hlen, hds, hfollows⟩ := body.follows (k := (p, n + 1) :: k) hbody hfitsBody
          rw [replicate_succ, flatten_cons, append_assoc, append_assoc] at h
          exact not_reaches_of_two_ended (by omega) hds hnext hback
            (hfollows.reaches_append_iff.mp h)
      · rw [replicate_succ, flatten_cons, append_assoc, append_assoc] at h
        exact ihbody (k := (p, n + 1) :: k) hbody hfitsBody (show StartsAt _ (_ :: _) e from rfl) h

/-- A program is executed as written if and only if it fits. -/
theorem Prog.reaches_iff (prog : Prog) (hplaced : prog.Placed F code p) :
    Reaches F code ⟨p, k⟩ (prog.trace F p) (p + prog.size F) ↔ prog.Fits F k.length := by
  constructor
  · intro h
    by_contra hfits
    rw [← append_nil (prog.trace F p)] at h
    exact prog.not_reaches hplaced hfits (show StartsAt _ [] _ from rfl) h
  · intro hfits
    obtain ⟨ds, -, -, hfollows⟩ := prog.follows hplaced hfits
    exact ⟨_, hfollows, rfl⟩

end LazyLoops
