-- SUMMARY: The search instruction: matches and extremes of a list, and when both are found.
import Kalyke.Exec.Stored
import Kalyke.Lib.RunningLeast

/-!
# Search

`SER` looks a value up in a list of words, and notes the places of the least and the greatest word
in the same loop. Both running extremes are set at the first match, and hold whatever was in the
memory until then, while their places start at zero. The place of the last match is noted from the
second one on only.
-/

namespace Kalyke

open List Nat BitVec RunningLeast

/-! ## The instruction -/

/-- What the local variables and the buffer hold before they are given values. -/
structure SerJunk where
  min : BitVec 16
  max : BitVec 16
  buffer : Nat → BitVec 16

/-- What `SER` writes: the number of matches, the places of the first and the last one, and those of
the extremes. -/
@[ext]
structure SerResult where
  num : Nat
  first : Nat
  last : Nat
  minAt : Nat
  maxAt : Nat
deriving DecidableEq, Repr

def SerResult.words (r : SerResult) : List (BitVec 16) :=
  [.ofNat 16 r.num, .ofNat 16 r.first, .ofNat 16 r.last, .ofNat 16 r.minAt, .ofNat 16 r.maxAt]

/-- The variables of the loop. -/
structure SerState extends SerResult where
  min : BitVec 16
  max : BitVec 16

/-- The variables before the loop. -/
def SerJunk.start (junk : SerJunk) : SerState := ⟨⟨0, 0, 0, 0, 0⟩, junk.min, junk.max⟩

/-- What the loop does with a match. -/
def SerState.matched (i : Nat) (x : BitVec 16) (r : SerState) : SerState :=
  let r := { r with num := r.num + 1 }
  if r.num = 1 then { r with first := i, min := x, max := x } else { r with last := i }

/-- What the loop does with the running minimum. -/
def SerState.lowered (i : Nat) (x : BitVec 16) (r : SerState) : SerState :=
  if x.toInt < r.min.toInt then { r with min := x, minAt := i } else r

/-- What the loop does with the running maximum. -/
def SerState.raised (i : Nat) (x : BitVec 16) (r : SerState) : SerState :=
  if r.max.toInt < x.toInt then { r with max := x, maxAt := i } else r

/-- One pass of the loop. -/
def serStep (v : BitVec 16) (i : Nat) (x : BitVec 16) (r : SerState) : SerState :=
  ((if x = v then r.matched i x else r).lowered i x).raised i x

/-- The loop over the words of the list from the place `i` on. -/
def serLoop (v : BitVec 16) : Nat → List (BitVec 16) → SerState → SerState
  | _, [], r => r
  | i, x :: xs, r => serLoop v (i + 1) xs (serStep v i x r)

/-- The operands: the size of the list, the value that is looked up, and the list. -/
def serTerms (i : BodyInput) : Except PlcErr (Nat × BitVec 16 × List (BitVec 16)) := do
  let n ← i.word 14 0 i.store
  if n.toInt < 1 ∨ 256 < n.toInt then .error .operands
  else do
    let v ← i.word 6 0 i.store
    let xs ← i.words 2 0 n.toNat i.store
    return (n.toNat, v, xs)

def runCiSerIns (junk : SerJunk) (i : BodyInput) : BodyResult :=
  runChecked i (serTerms i) fun (n, v, xs) s =>
    let buffer := (range n).map fun k => xs.getD k (junk.buffer k)
    i.saveWords (i.pc + 10) 0 (serLoop v 0 buffer junk.start).words s

/-! ## Laws -/

/-- A search of a value in a list with power flow. -/
structure SerOf (v : BitVec 16) (xs : List (BitVec 16)) (i : BodyInput) : Prop where
  power : getPowerFlow i.inPF = true
  count : i.word 14 0 i.store = .ok (BitVec.ofNat 16 xs.length)
  value : i.word 6 0 i.store = .ok v
  list : i.words 2 0 xs.length i.store = .ok xs

/-- The order of signed words turned round. -/
def descending (x : BitVec 16) : Int := -x.toInt

/-- A place is that of a match. -/
def MatchAt (v : BitVec 16) (xs : List (BitVec 16)) (k : Nat) : Prop := xs[k]? = some v

/-- What a search is to find. Without a match the first three numbers are zero. -/
structure Searched (v : BitVec 16) (xs : List (BitVec 16)) (r : SerResult) : Prop where
  num : r.num = xs.count v
  first : v ∉ xs ∧ r.first = 0 ∨ MatchAt v xs r.first ∧ ∀ k < r.first, ¬ MatchAt v xs k
  last : v ∉ xs ∧ r.last = 0 ∨ MatchAt v xs r.last ∧ ∀ k, r.last < k → ¬ MatchAt v xs k
  least : LeastAt BitVec.toInt xs r.minAt
  greatest : LeastAt descending xs r.maxAt

/-- Whatever was in the memory, and wherever the operands lie, `SER` writes what is to be found. -/
def SerRight (v : BitVec 16) (xs : List (BitVec 16)) : Prop :=
  ∀ i, SerOf v xs i → ∃ r, Searched v xs r ∧
    ∀ junk, runCiSerIns junk i = i.storedWords 10 r.words i.store

/-- The words behind the first match. -/
def behindMatch (v : BitVec 16) (xs : List (BitVec 16)) : List (BitVec 16) :=
  xs.drop (xs.idxOf v + 1)

/-- An extreme is found: it is behind the first match and goes beyond the value looked up, or
nothing behind the match does and the first word of the list is an extreme. -/
def ExtremeFound (key : BitVec 16 → Int) (v : BitVec 16) (xs : List (BitVec 16)) : Prop :=
  (∃ y ∈ behindMatch v xs, key y < key v ∧ ∀ z ∈ xs, key y ≤ key z) ∨
    (∀ y ∈ behindMatch v xs, key v ≤ key y) ∧ LeastAt key xs 0

/-- The condition on a list: a single match is the first word, and both extremes are found. -/
structure SerFinds (v : BitVec 16) (xs : List (BitVec 16)) : Prop where
  single : xs.count v = 1 → MatchAt v xs 0
  least : ExtremeFound BitVec.toInt v xs
  greatest : ExtremeFound descending v xs

/-! ## The loop -/

section

variable {v x : BitVec 16} {xs ys : List (BitVec 16)} {r t : SerState} {i : Nat}

/-- The running extremes leave the matches alone. -/
theorem lowered_raised_matches : ((r.lowered i x).raised i x).num = r.num ∧
    ((r.lowered i x).raised i x).first = r.first ∧
    ((r.lowered i x).raised i x).last = r.last := by
  rw [SerState.raised, SerState.lowered]
  split <;> split <;> exact ⟨rfl, rfl, rfl⟩

theorem lowered_raised_extremes :
    (((r.lowered i x).raised i x).min, ((r.lowered i x).raised i x).minAt) =
      (if x.toInt < r.min.toInt then (x, i) else (r.min, r.minAt)) ∧
    (((r.lowered i x).raised i x).max, ((r.lowered i x).raised i x).maxAt) =
      (if descending x < descending r.max then (x, i) else (r.max, r.maxAt)) := by
  simp only [descending, Int.neg_lt_neg_iff]
  have hmax : (r.lowered i x).max = r.max ∧ (r.lowered i x).maxAt = r.maxAt := by
    rw [SerState.lowered]
    split <;> exact ⟨rfl, rfl⟩
  have hmin : ((r.lowered i x).min, (r.lowered i x).minAt) =
      if x.toInt < r.min.toInt then (x, i) else (r.min, r.minAt) := by
    rw [SerState.lowered]
    split <;> rfl
  rw [← hmin, SerState.raised, hmax.1]
  split
  · exact ⟨rfl, rfl⟩
  · exact ⟨rfl, Prod.ext hmax.1 hmax.2⟩

/-- What a pass does to the matches. -/
theorem serStep_matches : (serStep v i x r).num = (if x = v then r.num + 1 else r.num) ∧
    (serStep v i x r).first = (if x = v ∧ r.num = 0 then i else r.first) ∧
    (serStep v i x r).last = (if x = v ∧ r.num ≠ 0 then i else r.last) := by
  obtain ⟨hnum, hfirst, hlast⟩ := lowered_raised_matches (i := i) (x := x)
    (r := if x = v then r.matched i x else r)
  rw [serStep, hnum, hfirst, hlast]
  by_cases hx : x = v <;> by_cases hzero : r.num = 0 <;> simp [SerState.matched, hx, hzero]

/-- What a pass does to the extremes, but for the first match. -/
theorem serStep_extremes (h : x ≠ v ∨ 0 < r.num) :
    ((serStep v i x r).min, (serStep v i x r).minAt) =
      (if x.toInt < r.min.toInt then (x, i) else (r.min, r.minAt)) ∧
    ((serStep v i x r).max, (serStep v i x r).maxAt) =
      (if descending x < descending r.max then (x, i) else (r.max, r.maxAt)) := by
  obtain ⟨hmin, hmax⟩ := lowered_raised_extremes (i := i) (x := x)
    (r := if x = v then r.matched i x else r)
  rw [serStep, hmin, hmax]
  by_cases hx : x = v
  · have hnum : r.num ≠ 0 := Nat.pos_iff_ne_zero.mp (h.resolve_left (not_not.mpr hx))
    simp [SerState.matched, hx, hnum]
  · simp [hx]

/-- What the first match does. -/
theorem serStep_first (h : r.num = 0) : serStep v i v r =
    { r with num := 1, first := i, min := v, max := v } := by
  simp [serStep, SerState.matched, SerState.lowered, SerState.raised, h]

theorem serLoop_append :
    serLoop v i (xs ++ ys) r = serLoop v (i + xs.length) ys (serLoop v i xs r) := by
  induction xs generalizing i r with
  | nil => rfl
  | cons x xs ih =>
    rw [List.cons_append, serLoop, ih, Nat.add_right_comm]
    rfl

/-- Before the first match and behind it, the extremes are running ones. -/
theorem serLoop_extremes (xs : List (BitVec 16)) (i : Nat) (h : v ∉ xs ∨ 0 < r.num) :
    ((serLoop v i xs r).min, (serLoop v i xs r).minAt) =
      least BitVec.toInt i xs (r.min, r.minAt) ∧
    ((serLoop v i xs r).max, (serLoop v i xs r).maxAt) =
      least descending i xs (r.max, r.maxAt) := by
  induction xs generalizing i r with
  | nil => exact ⟨rfl, rfl⟩
  | cons x xs ih =>
    have hx : x ≠ v ∨ 0 < r.num := h.imp_left fun hnot heq => hnot (heq ▸ mem_cons_self)
    have hrest : v ∉ xs ∨ 0 < (serStep v i x r).num := by
      refine h.imp (fun hnot hmem => hnot (mem_cons_of_mem x hmem)) fun hpos => ?_
      rw [serStep_matches.1]
      split <;> omega
    obtain ⟨hmin, hmax⟩ := serStep_extremes (i := i) hx
    obtain ⟨ihmin, ihmax⟩ := ih (i + 1) hrest
    rw [serLoop, ihmin, ihmax, hmin, hmax]
    exact ⟨rfl, rfl⟩

theorem serLoop_num : (serLoop v i xs r).num = r.num + xs.count v := by
  induction xs generalizing i r with
  | nil => rfl
  | cons x xs ih =>
    rw [serLoop, ih, serStep_matches.1]
    split <;> rename_i hx <;> simp [hx]
    omega

/-- Without a match none is noted. -/
theorem serLoop_of_notMem (h : v ∉ xs) : (serLoop v i xs r).first = r.first ∧
    (serLoop v i xs r).last = r.last := by
  induction xs generalizing i r with
  | nil => exact ⟨rfl, rfl⟩
  | cons x xs ih =>
    obtain ⟨hx, hrest⟩ := not_or.mp fun hor => h (mem_cons.mpr hor)
    obtain ⟨-, hfirst, hlast⟩ := serStep_matches (v := v) (i := i) (x := x) (r := r)
    obtain ⟨ihfirst, ihlast⟩ := ih (i := i + 1) (r := serStep v i x r) hrest
    rw [serLoop, ihfirst, ihlast, hfirst, hlast, if_neg fun hboth => hx hboth.1.symm,
      if_neg fun hboth => hx hboth.1.symm]
    exact ⟨rfl, rfl⟩

/-- The first match is noted once. -/
theorem serLoop_first (h : 0 < r.num) : (serLoop v i xs r).first = r.first := by
  induction xs generalizing i r with
  | nil => rfl
  | cons x xs ih =>
    obtain ⟨hnum, hfirst, -⟩ := serStep_matches (v := v) (i := i) (x := x) (r := r)
    rw [serLoop, ih, hfirst, if_neg]
    · omega
    · rw [hnum]
      split <;> omega

/-- Behind the first match the last one is noted, if there is any. -/
theorem serLoop_last (h : 0 < r.num) : v ∉ xs ∧ (serLoop v i xs r).last = r.last ∨
    ∃ j, (serLoop v i xs r).last = i + j ∧ MatchAt v xs j ∧ ∀ k, j < k → ¬ MatchAt v xs k := by
  induction xs generalizing i r with
  | nil => exact .inl ⟨not_mem_nil, rfl⟩
  | cons x xs ih =>
    obtain ⟨hnum, -, hlast⟩ := serStep_matches (v := v) (i := i) (x := x) (r := r)
    have hpos : 0 < (serStep v i x r).num := by
      rw [hnum]
      split <;> omega
    rcases ih (i := i + 1) hpos with ⟨hnot, heq⟩ | ⟨j, heq, hmatch, hno⟩
    · rw [serLoop, heq, hlast]
      by_cases hx : x = v
      · refine .inr ⟨0, ?_, congrArg some hx, fun k hk hmatch => ?_⟩
        · rw [if_pos ⟨hx, by omega⟩, Nat.add_zero]
        · obtain ⟨k, rfl⟩ := exists_eq_succ_of_ne_zero (Nat.pos_iff_ne_zero.mp hk)
          exact hnot (mem_of_getElem? hmatch)
      · refine .inl ⟨fun hmem => ?_, if_neg fun hboth => hx hboth.1⟩
        rcases mem_cons.mp hmem with rfl | hmem
        · exact hx rfl
        · exact hnot hmem
    · refine .inr ⟨j + 1, ?_, hmatch, fun k hk hmatch' => ?_⟩
      · rw [serLoop, heq, Nat.add_assoc, Nat.add_comm 1]
      · obtain ⟨k, rfl⟩ := exists_eq_succ_of_ne_zero (Nat.ne_of_gt (zero_lt_of_lt hk))
        exact hno k (lt_of_succ_lt_succ hk) hmatch'

/-- The matches that are noted do not depend on the extremes. -/
theorem serLoop_matches_congr (v : BitVec 16) (i : Nat) (xs : List (BitVec 16)) (t r : SerState)
    (hnum : t.num = r.num) (hfirst : t.first = r.first) (hlast : t.last = r.last) :
    (serLoop v i xs t).num = (serLoop v i xs r).num ∧
      (serLoop v i xs t).first = (serLoop v i xs r).first ∧
      (serLoop v i xs t).last = (serLoop v i xs r).last := by
  induction xs generalizing i t r with
  | nil => exact ⟨hnum, hfirst, hlast⟩
  | cons x xs ih =>
    obtain ⟨hnum', hfirst', hlast'⟩ := serStep_matches (v := v) (i := i) (x := x) (r := r)
    obtain ⟨hnum'', hfirst'', hlast''⟩ := serStep_matches (v := v) (i := i) (x := x) (r := t)
    refine ih _ _ _ ?_ ?_ ?_
    · rw [hnum', hnum'', hnum]
    · rw [hfirst', hfirst'', hnum, hfirst]
    · rw [hlast', hlast'', hnum, hlast]

/-- A number and places are at most `m`. -/
structure SerResult.Within (m : Nat) (r : SerResult) : Prop where
  num : r.num ≤ m
  first : r.first ≤ m
  last : r.last ≤ m
  minAt : r.minAt ≤ m
  maxAt : r.maxAt ≤ m

theorem snd_ite_le {p : Prop} [Decidable p] {y : BitVec 16} {k : Nat} (h : k ≤ i) :
    (if p then (x, i) else (y, k)).2 ≤ i + 1 := by
  split
  · exact le_succ i
  · exact le_succ_of_le h

theorem serStep_within (h : r.toSerResult.Within i) :
    (serStep v i x r).toSerResult.Within (i + 1) := by
  obtain ⟨hnum, hfirst, hlast⟩ := serStep_matches (v := v) (i := i) (x := x) (r := r)
  have hmatched : (if x = v then r.matched i x else r).minAt = r.minAt ∧
      (if x = v then r.matched i x else r).maxAt = r.maxAt := by
    by_cases hx : x = v <;> by_cases hzero : r.num = 0 <;>
      simp [SerState.matched, hx, hzero]
  obtain ⟨hmin, hmax⟩ := lowered_raised_extremes (i := i) (x := x)
    (r := if x = v then r.matched i x else r)
  refine ⟨?_, ?_, ?_, ?_, ?_⟩
  · have hle := h.num
    rw [hnum]
    split <;> omega
  · have hle := h.first
    rw [hfirst]
    split <;> omega
  · have hle := h.last
    rw [hlast]
    split <;> omega
  · have hminAt : (serStep v i x r).minAt = _ := congrArg Prod.snd hmin
    rw [hminAt, hmatched.1]
    exact snd_ite_le h.minAt
  · have hmaxAt : (serStep v i x r).maxAt = _ := congrArg Prod.snd hmax
    rw [hmaxAt, hmatched.2]
    exact snd_ite_le h.maxAt

/-- Numbers and places are within the list. -/
theorem serLoop_within (v : BitVec 16) (xs : List (BitVec 16)) (h : r.toSerResult.Within i) :
    (serLoop v i xs r).toSerResult.Within (i + xs.length) := by
  induction xs generalizing i r with
  | nil => exact h
  | cons x xs ih =>
    have hrest := ih (serStep_within (v := v) (x := x) h)
    rw [length_cons, Nat.add_comm xs.length, ← Nat.add_assoc]
    exact hrest

end

/-! ## The places of the extremes -/

section

variable {key : BitVec 16 → Int} {v b b' : BitVec 16} {xs pre rest : List (BitVec 16)}

/-- The place of an extreme that the loop ends with, where the running one is `b` at the start. -/
def extremePlace (key : BitVec 16 → Int) (v : BitVec 16) (xs : List (BitVec 16)) (b : BitVec 16) :
    Nat :=
  (least key (xs.idxOf v + 1) (behindMatch v xs)
    (v, (least key 0 (xs.take (xs.idxOf v)) (b, 0)).2)).2

theorem around_match (rest : List (BitVec 16)) (h : v ∉ pre) :
    (pre ++ v :: rest).idxOf v = pre.length ∧
    (pre ++ v :: rest).take pre.length = pre ∧ behindMatch v (pre ++ v :: rest) = rest := by
  have hidx : (pre ++ v :: rest).idxOf v = pre.length := by
    rw [idxOf_append, if_neg h, idxOf_cons_self, Nat.zero_add]
  refine ⟨hidx, take_left, ?_⟩
  rw [behindMatch, hidx, ← drop_drop, drop_left]
  rfl

theorem behindMatch_of_notMem (h : v ∉ xs) : behindMatch v xs = [] := by
  rw [behindMatch, idxOf_eq_length h]
  exact drop_eq_nil_of_le (le_succ _)

theorem extremePlace_iff (hbot : ∃ b, ∀ x, key b ≤ key x) :
    (∀ b, LeastAt key xs (extremePlace key v xs b)) ↔ ExtremeFound key v xs := by
  by_cases hv : v ∈ xs
  · obtain ⟨pre, rest, rfl, hpre⟩ := eq_append_cons_of_mem hv
    obtain ⟨hidx, htake, hbehind⟩ := around_match rest hpre
    have happend : pre ++ v :: rest = (pre ++ [v]) ++ rest := by rw [List.append_assoc]; rfl
    have hlen : pre.length + 1 = (pre ++ [v]).length := by rw [length_append]; rfl
    have hplace (b : BitVec 16) :=
      leastAt_append_iff key (pre ++ [v]) rest v (least key 0 pre (b, 0)).2
    rw [← happend, ← hlen] at hplace
    simp only [extremePlace, hidx, htake, hbehind, hplace, ExtremeFound]
    rw [forall_or_left, forall_and_left, leastAt_of_starts_iff hbot]
  · have hidx := idxOf_eq_length hv
    simp only [extremePlace, hidx, behindMatch_of_notMem hv, ExtremeFound]
    have hstarts : (∀ b, LeastAt key (xs ++ []) (least key 0 xs (b, 0)).2) ↔
        LeastAt key (xs ++ []) 0 := leastAt_of_starts_iff hbot
    simpa [least] using hstarts

theorem extremePlace_eq (h : ExtremeFound key v xs) :
    extremePlace key v xs b = extremePlace key v xs b' := by
  rcases h with ⟨y, hy, hlt, -⟩ | ⟨-, hzero⟩
  · rw [extremePlace, least_forgets ⟨y, hy, hlt⟩]
    rfl
  · rw [← take_append_drop (xs.idxOf v) xs] at hzero
    rw [extremePlace, extremePlace, least_of_leastAt hzero, least_of_leastAt hzero]

end

/-! ## Searches -/

section

variable {v : BitVec 16} {xs : List (BitVec 16)} {i : BodyInput} {junk : SerJunk}

theorem serLoop_places (v : BitVec 16) (xs : List (BitVec 16)) (junk : SerJunk) :
    (serLoop v 0 xs junk.start).minAt = extremePlace BitVec.toInt v xs junk.min ∧
    (serLoop v 0 xs junk.start).maxAt = extremePlace descending v xs junk.max := by
  by_cases hv : v ∈ xs
  · obtain ⟨pre, rest, rfl, hpre⟩ := eq_append_cons_of_mem hv
    obtain ⟨hidx, htake, hbehind⟩ := around_match rest hpre
    have hzero : (serLoop v 0 pre junk.start).num = 0 := by
      rw [serLoop_num, count_eq_zero_of_not_mem hpre]
      rfl
    obtain ⟨hmin, hmax⟩ := serLoop_extremes pre 0 (r := junk.start) (.inl hpre)
    have hone : 0 < (serStep v pre.length v (serLoop v 0 pre junk.start)).num := by
      rw [serStep_first hzero]
      exact Nat.one_pos
    obtain ⟨hmin', hmax'⟩ := serLoop_extremes rest (pre.length + 1) (.inr hone)
    rw [serLoop_append, Nat.zero_add, serLoop]
    simp only [extremePlace, hidx, htake, hbehind]
    rw [serStep_first hzero] at hmin' hmax' ⊢
    refine ⟨(congrArg Prod.snd hmin').trans ?_, (congrArg Prod.snd hmax').trans ?_⟩
    · rw [← show _ = least BitVec.toInt 0 pre (junk.min, 0) from hmin]
    · rw [← show _ = least descending 0 pre (junk.max, 0) from hmax]
  · obtain ⟨hmin, hmax⟩ := serLoop_extremes xs 0 (r := junk.start) (.inl hv)
    simp only [extremePlace, idxOf_eq_length hv, take_length, behindMatch_of_notMem hv]
    exact ⟨congrArg Prod.snd hmin, congrArg Prod.snd hmax⟩

theorem serLoop_matches_iff (v : BitVec 16) (xs : List (BitVec 16)) (junk : SerJunk) :
    ((v ∉ xs ∧ (serLoop v 0 xs junk.start).first = 0 ∨
        MatchAt v xs (serLoop v 0 xs junk.start).first ∧
          ∀ k < (serLoop v 0 xs junk.start).first, ¬ MatchAt v xs k) ∧
      (v ∉ xs ∧ (serLoop v 0 xs junk.start).last = 0 ∨
        MatchAt v xs (serLoop v 0 xs junk.start).last ∧
          ∀ k, (serLoop v 0 xs junk.start).last < k → ¬ MatchAt v xs k)) ↔
      (xs.count v = 1 → MatchAt v xs 0) := by
  by_cases hv : v ∈ xs
  · obtain ⟨pre, rest, rfl, hpre⟩ := eq_append_cons_of_mem hv
    have hcount : (pre ++ v :: rest).count v = rest.count v + 1 := by
      rw [count_append, count_eq_zero_of_not_mem hpre, count_cons_self,
        Nat.zero_add]
    have hzero : (serLoop v 0 pre junk.start).num = 0 := by
      rw [serLoop_num, count_eq_zero_of_not_mem hpre]
      rfl
    -- the first match, and what is noted behind it
    obtain ⟨r, hr⟩ : ∃ r, r = serStep v pre.length v (serLoop v 0 pre junk.start) := ⟨_, rfl⟩
    have hrun : serLoop v 0 (pre ++ v :: rest) junk.start = serLoop v (pre.length + 1) rest r := by
      rw [serLoop_append, Nat.zero_add, serLoop, hr]
    have hone : 0 < r.num := by
      rw [hr, serStep_first hzero]
      exact Nat.one_pos
    have hfirst : r.first = pre.length := by rw [hr, serStep_first hzero]
    have hlast : r.last = 0 := by
      rw [hr, serStep_first hzero]
      exact (serLoop_of_notMem hpre).2
    rw [hrun, serLoop_first hone, hfirst, hcount]
    have hplace : MatchAt v (pre ++ v :: rest) pre.length := by
      rw [MatchAt, getElem?_append_right (Nat.le_refl _), Nat.sub_self]
      rfl
    have hbefore (k : Nat) (hk : k < pre.length) : ¬ MatchAt v (pre ++ v :: rest) k := by
      intro hmatch
      rw [MatchAt, getElem?_append_left hk] at hmatch
      exact hpre (mem_of_getElem? hmatch)
    have hbehind (j : Nat) :
        MatchAt v (pre ++ v :: rest) (pre.length + 1 + j) ↔ MatchAt v rest j := by
      rw [MatchAt, getElem?_append_right (by omega), Nat.add_assoc, Nat.add_sub_cancel_left,
        Nat.add_comm 1, getElem?_cons_succ, MatchAt]
    rcases serLoop_last hone with ⟨hnot, heq⟩ | ⟨j, heq, hmatch, hno⟩
    · rw [heq, hlast, count_eq_zero_of_not_mem hnot]
      constructor
      · rintro ⟨-, ⟨hnone, -⟩ | ⟨hmatch, -⟩⟩ -
        · exact absurd hv hnone
        · exact hmatch
      · intro h
        have hmatch := h rfl
        refine ⟨.inr ⟨hplace, hbefore⟩, .inr ⟨hmatch, fun k hk hmatch' => ?_⟩⟩
        have hnil : ¬ 0 < pre.length := fun hpos => hbefore 0 hpos hmatch
        obtain ⟨j, rfl⟩ : ∃ j, k = pre.length + 1 + j := ⟨k - 1, by omega⟩
        exact hnot (mem_of_getElem? ((hbehind j).mp hmatch'))
    · have htwo : 0 < rest.count v := count_pos_iff.mpr (mem_of_getElem? hmatch)
      rw [heq]
      refine iff_of_true ⟨.inr ⟨hplace, hbefore⟩, .inr ⟨(hbehind j).mpr hmatch, ?_⟩⟩ (by omega)
      intro k hk hmatch'
      obtain ⟨l, rfl⟩ : ∃ l, k = pre.length + 1 + l := ⟨k - (pre.length + 1), by omega⟩
      exact hno l (by omega) ((hbehind l).mp hmatch')
  · obtain ⟨hfirst, hlast⟩ := serLoop_of_notMem (i := 0) (r := junk.start) hv
    refine iff_of_true ⟨.inl ⟨hv, hfirst⟩, .inl ⟨hv, hlast⟩⟩ fun hone => ?_
    rw [count_eq_zero_of_not_mem hv] at hone
    cases hone

/-- What the loop ends with is what is to be found, whatever was in the memory, just if the search
finds it. -/
theorem searched_iff : (∀ junk : SerJunk, Searched v xs (serLoop v 0 xs junk.start).toSerResult) ↔
    SerFinds v xs := by
  have hleast : ∃ b : BitVec 16, ∀ x : BitVec 16, b.toInt ≤ x.toInt :=
    ⟨0x8000, fun x => le_toInt x⟩
  have hgreatest : ∃ b : BitVec 16, ∀ x, descending b ≤ descending x :=
    ⟨0x7FFF, fun x => by
      have hlt := x.toInt_lt
      rw [descending, descending]
      change -32767 ≤ _
      omega⟩
  constructor
  · intro h
    refine ⟨?_, (extremePlace_iff hleast).mp fun b => ?_,
      (extremePlace_iff hgreatest).mp fun b => ?_⟩
    · have hsearched := h ⟨0, 0, fun _ => 0⟩
      exact (serLoop_matches_iff v xs _).mp ⟨hsearched.first, hsearched.last⟩
    · rw [← (serLoop_places v xs ⟨b, 0, fun _ => 0⟩).1]
      exact (h _).least
    · rw [← (serLoop_places v xs ⟨0, b, fun _ => 0⟩).2]
      exact (h _).greatest
  · intro h junk
    obtain ⟨hminAt, hmaxAt⟩ := serLoop_places v xs junk
    obtain ⟨hfirst, hlast⟩ := (serLoop_matches_iff v xs junk).mpr h.single
    refine ⟨serLoop_num.trans (Nat.zero_add _), hfirst, hlast, ?_, ?_⟩
    · rw [hminAt]
      exact (extremePlace_iff hleast).mpr h.least junk.min
    · rw [hmaxAt]
      exact (extremePlace_iff hgreatest).mpr h.greatest junk.max

/-- What is found does not depend on what was in the memory. -/
theorem serLoop_junk (h : SerFinds v xs) (junk junk' : SerJunk) :
    (serLoop v 0 xs junk.start).toSerResult = (serLoop v 0 xs junk'.start).toSerResult := by
  obtain ⟨hnum, hfirst, hlast⟩ := serLoop_matches_congr v 0 xs junk.start junk'.start rfl rfl rfl
  obtain ⟨hminAt, hmaxAt⟩ := serLoop_places v xs junk
  obtain ⟨hminAt', hmaxAt'⟩ := serLoop_places v xs junk'
  refine SerResult.ext hnum hfirst hlast ?_ ?_
  · rw [hminAt, hminAt', extremePlace_eq h.least]
  · rw [hmaxAt, hmaxAt', extremePlace_eq h.greatest]

/-- The body: what the loop ends with is stored. -/
theorem ser_run (h : SerOf v xs i) (hpos : 1 ≤ xs.length) (hle : xs.length ≤ 256) :
    runCiSerIns junk i = i.storedWords 10 (serLoop v 0 xs junk.start).words i.store := by
  have hcount : (BitVec.ofNat 16 xs.length).toInt = xs.length := toInt_ofNat_count (by omega)
  have hnat : (BitVec.ofNat 16 xs.length).toNat = xs.length := toNat_ofNat_count (by omega)
  have hterms : serTerms i = .ok (xs.length, v, xs) := by
    simp only [serTerms, h.count, bind, Except.bind]
    rw [if_neg (by omega)]
    simp only [h.value, hnat, h.list]
    rfl
  have hbuffer : ((range xs.length).map fun k => xs.getD k (junk.buffer k)) = xs := by
    refine ext_getElem (by simp) fun k hk hk' => ?_
    rw [getElem_map, getElem_range, getD_eq_getElem?_getD,
      List.getElem?_eq_getElem hk', Option.getD_some]
  rw [runCiSerIns, runChecked_eq h.power hterms]
  simp only [hbuffer]
  rfl

/-- The words tell numbers and places within a list. -/
theorem serResult_words_inj {r t : SerResult} {m : Nat} (hr : r.Within m) (ht : t.Within m)
    (hm : m < 65536) (h : r.words = t.words) : r = t := by
  have hword {a b : Nat} (ha : a ≤ m) (hb : b ≤ m) (hab : BitVec.ofNat 16 a = BitVec.ofNat 16 b) :
      a = b := by
    have hnat := congrArg BitVec.toNat hab
    rwa [toNat_ofNat, toNat_ofNat, mod_eq_of_lt (by omega),
      mod_eq_of_lt (by omega)] at hnat
  simp only [SerResult.words, cons.injEq, and_true] at h
  obtain ⟨hnum, hfirst, hlast, hminAt, hmaxAt⟩ := h
  exact SerResult.ext (hword hr.num ht.num hnum) (hword hr.first ht.first hfirst)
    (hword hr.last ht.last hlast) (hword hr.minAt ht.minAt hminAt)
    (hword hr.maxAt ht.maxAt hmaxAt)

theorem Searched.within {r : SerResult} (h : Searched v xs r) : r.Within xs.length := by
  have hmatch {k : Nat} (hk : MatchAt v xs k) : k ≤ xs.length :=
    Nat.le_of_lt (List.getElem?_eq_some_iff.mp hk).1
  have hleast {key : BitVec 16 → Int} {k : Nat} (hk : LeastAt key xs k) : k ≤ xs.length := by
    obtain ⟨x, hx, -⟩ := hk
    exact Nat.le_of_lt (List.getElem?_eq_some_iff.mp hx).1
  refine ⟨h.num ▸ count_le_length, ?_, ?_, hleast h.least, hleast h.greatest⟩
  · rcases h.first with ⟨-, hzero⟩ | ⟨hk, -⟩
    · omega
    · exact hmatch hk
  · rcases h.last with ⟨-, hzero⟩ | ⟨hk, -⟩
    · omega
    · exact hmatch hk

/-- A search in a list from `D0` on. The result is stored from `D0` on. -/
def serFromD0 (v : BitVec 16) (xs : List (BitVec 16)) : BodyInput :=
  { ucode := [0, 0] ++ d0Operand ++ wordOperand v ++ d0Operand ++
      wordOperand (BitVec.ofNat 16 xs.length), pc := 0, level := 0, now := 0, inPF := 1,
    sfc := Plc.off.sfc, store := listFromD0 xs }

theorem serFromD0_code (v : BitVec 16) (xs : List (BitVec 16)) :
    (serFromD0 v xs).ucode.CodeAt 2 d0Operand ∧
    (serFromD0 v xs).ucode.CodeAt 6 (wordOperand v) ∧
    (serFromD0 v xs).ucode.CodeAt 10 d0Operand ∧
    (serFromD0 v xs).ucode.CodeAt 14 (wordOperand (BitVec.ofNat 16 xs.length)) := by
  have hcode := Ucode.codeAt_self (u := (serFromD0 v xs).ucode)
  obtain ⟨hdest, hcount⟩ := Ucode.codeAt_append.mp hcode
  obtain ⟨hvalue, hdest⟩ := Ucode.codeAt_append.mp hdest
  obtain ⟨hlist, hvalue⟩ := Ucode.codeAt_append.mp hvalue
  exact ⟨(Ucode.codeAt_append.mp hlist).2, hvalue, hdest, hcount⟩

theorem serFromD0_of (hle : xs.length ≤ 256) : SerOf v xs (serFromD0 v xs) := by
  obtain ⟨hlist, hvalue, -, hcount⟩ := serFromD0_code v xs
  exact ⟨getPowerFlow_one, word_literal hcount, word_literal hvalue,
    words_listFromD0 hlist (by omega)⟩

/-- If `SER` is right for a list, it is so for the list from `D0` on. -/
theorem serFinds_of_right (hpos : 1 ≤ xs.length) (hle : xs.length ≤ 256) (h : SerRight v xs) :
    SerFinds v xs := by
  have hstart (junk : SerJunk) : junk.start.toSerResult.Within 0 :=
    ⟨Nat.le_refl 0, Nat.le_refl 0, Nat.le_refl 0, Nat.le_refl 0, Nat.le_refl 0⟩
  obtain ⟨r, hr, hrun⟩ := h _ (serFromD0_of hle)
  refine searched_iff.mp fun junk => ?_
  have hdest : (serFromD0 v xs).ucode.CodeAt ((serFromD0 v xs).pc + 10) d0Operand :=
    (serFromD0_code v xs).2.2.1
  have hsize : (serLoop v 0 xs junk.start).words.length ≤ 8000 := by
    change 5 ≤ 8000
    decide
  have hwords : (serLoop v 0 xs junk.start).words = r.words :=
    storedWords_d0_inj hdest hsize rfl
      ((ser_run (serFromD0_of hle) hpos hle).symm.trans (hrun junk))
  have hwithin := serLoop_within v xs (hstart junk)
  rw [Nat.zero_add] at hwithin
  rwa [serResult_words_inj hwithin hr.within (by omega) hwords]

theorem serRight_of_finds (hpos : 1 ≤ xs.length) (hle : xs.length ≤ 256) (h : SerFinds v xs) :
    SerRight v xs := by
  intro i hi
  refine ⟨_, searched_iff.mpr h ⟨0, 0, fun _ => 0⟩, fun junk => ?_⟩
  rw [ser_run hi hpos hle, serLoop_junk h junk]

/-- `SER` is right for a list just if a single match is the first word and both extremes are
found. -/
theorem ser_right_iff (hpos : 1 ≤ xs.length) (hle : xs.length ≤ 256) :
    SerRight v xs ↔ SerFinds v xs :=
  ⟨serFinds_of_right hpos hle, serRight_of_finds hpos hle⟩

/-- Three words with the value at both ends. -/
theorem ser_finds_three : SerRight 5 [5, 1, 5] := by
  have hbehind : behindMatch 5 [5, 1, 5] = [1, 5] := by decide
  have hleast : ExtremeFound BitVec.toInt 5 [5, 1, 5] := by
    rw [ExtremeFound, hbehind]
    simp
  have hgreatest : ExtremeFound descending 5 [5, 1, 5] := by
    rw [ExtremeFound, hbehind]
    simp [descending, LeastAt]
  exact (ser_right_iff (by decide) (by decide)).mpr ⟨fun _ => rfl, hleast, hgreatest⟩

/-- A single match that is not the first word. -/
theorem ser_misses_last : ¬ SerRight 5 [3, 5] := by
  intro h
  have hmatch := (serFinds_of_right (by decide) (by decide) h).single (by decide)
  exact absurd (Option.some.inj hmatch) (by decide)

end

end Kalyke
