-- SUMMARY: The record of the errors of a user program, and the error codes that `SD20..24` show.
import Kalyke.Exec.Run
import Kalyke.Lib.Runs
import Mathlib.Data.List.Destutter
import Mathlib.Tactic.IntervalCases

/-!
# The Record of Errors

An address is recorded once. It keeps its place and the code with which it came into the record,
also where another error is reported for it.
-/

namespace Kalyke

open List Function

/-! ## The record -/

/-- `gtv_PlcExecErrorRecord`, its number of errors as a number. -/
structure ErrorRecord where
  errorCnt : Nat
  errorMsg : Nat → BitVec 16
  errorAddr : Nat → BitVec 32

/-- A call: the code, and the offset of the instruction. -/
structure ErrorReport where
  code : BitVec 8
  addr : BitVec 32

def maxExecErrorRecordCnt : Nat := 5

namespace ErrorRecord

variable (r : ErrorRecord)

/-- An error is entered at a place. -/
def enter (i : Nat) (x : ErrorReport) : ErrorRecord :=
  { r with
    errorMsg := update r.errorMsg i (x.code.setWidth 16)
    errorAddr := update r.errorAddr i x.addr }

/-- The error behind a place moves to it. -/
def moveDown (i : Nat) : ErrorRecord :=
  { r with
    errorMsg := update r.errorMsg i (r.errorMsg (i + 1))
    errorAddr := update r.errorAddr i (r.errorAddr (i + 1)) }

def plcRefreshExecErrorRecord (x : ErrorReport) : ErrorRecord :=
  if ∃ i < r.errorCnt, r.errorAddr i = x.addr then r
  else if maxExecErrorRecordCnt ≤ r.errorCnt then
    ((range (maxExecErrorRecordCnt - 1)).foldl moveDown r).enter (maxExecErrorRecordCnt - 1) x
  else { r.enter r.errorCnt x with errorCnt := r.errorCnt + 1 }

/-- The record after `plc_clean_user_run_error_flag`. -/
def cleaned : ErrorRecord := { r with errorCnt := 0 }

/-- The errors of the record, the oldest first. -/
def entries : List (BitVec 32 × BitVec 16) :=
  (range r.errorCnt).map fun i => (r.errorAddr i, r.errorMsg i)

def addrs : List (BitVec 32) := r.entries.map Prod.fst

/-- What a call does to the record: at most five errors with different addresses, among them the one
that is reported. An address that is there stays with its code, another one comes to the end, and
the oldest error goes only where there were five. -/
structure Right (x : ErrorReport) : Prop where
  short : (r.plcRefreshExecErrorRecord x).entries.length ≤ 5
  distinct : (r.plcRefreshExecErrorRecord x).addrs.Nodup
  reported : x.addr ∈ (r.plcRefreshExecErrorRecord x).addrs
  stays : x.addr ∈ r.addrs → (r.plcRefreshExecErrorRecord x).entries = r.entries
  enters : x.addr ∉ r.addrs → r.entries.length < 5 →
    (r.plcRefreshExecErrorRecord x).entries = r.entries ++ [(x.addr, x.code.setWidth 16)]
  drops : x.addr ∉ r.addrs → r.entries.length = 5 →
    (r.plcRefreshExecErrorRecord x).entries = r.entries.tail ++ [(x.addr, x.code.setWidth 16)]

/-- The last code that was reported for an address is with it in the record. -/
def HasCode (x : ErrorReport) : Prop :=
  (x.addr, x.code.setWidth 16) ∈ (r.plcRefreshExecErrorRecord x).entries

structure Inv : Prop where
  count : r.errorCnt ≤ 5
  distinct : r.addrs.Nodup

variable {r} {x : ErrorReport}

theorem length_entries : r.entries.length = r.errorCnt := by
  rw [entries, length_map, length_range]

theorem mem_addrs {a : BitVec 32} : a ∈ r.addrs ↔ ∃ i < r.errorCnt, r.errorAddr i = a := by
  simp only [addrs, entries, map_map, mem_map, mem_range, comp_apply]

/-- An address that is not in the record goes to its end. -/
theorem entries_enter (h : r.errorCnt < 5) (hx : x.addr ∉ r.addrs) :
    (r.plcRefreshExecErrorRecord x).entries = r.entries ++ [(x.addr, x.code.setWidth 16)] := by
  have hroom : ¬ maxExecErrorRecordCnt ≤ r.errorCnt := Nat.not_le.mpr h
  rw [plcRefreshExecErrorRecord, if_neg (fun h => hx (mem_addrs.mpr h)), if_neg hroom]
  simp only [entries, enter, range_succ, map_append, map_singleton,
    update_self]
  refine congrArg (· ++ _) (map_congr_left fun i hi => ?_)
  have hne : i ≠ r.errorCnt := Nat.ne_of_lt (mem_range.mp hi)
  rw [update_of_ne hne, update_of_ne hne]

/-- In a record of five errors the oldest one makes room. -/
theorem entries_drop (h : r.errorCnt = 5) (hx : x.addr ∉ r.addrs) :
    (r.plcRefreshExecErrorRecord x).entries = r.entries.tail ++ [(x.addr, x.code.setWidth 16)] := by
  rw [plcRefreshExecErrorRecord, if_neg (fun h => hx (mem_addrs.mpr h))]
  obtain ⟨cnt, msg, addr⟩ := r
  obtain rfl : cnt = 5 := h
  rfl

theorem Inv.right (h : r.Inv) (x : ErrorReport) :
    r.Right x ∧ (r.plcRefreshExecErrorRecord x).Inv := by
  have hcount := length_entries (r := r)
  have hle := h.count
  by_cases hx : x.addr ∈ r.addrs
  · have hsame : r.plcRefreshExecErrorRecord x = r := if_pos (mem_addrs.mp hx)
    refine ⟨⟨?_, ?_, ?_, fun _ => congrArg entries hsame, absurd hx, absurd hx⟩, hsame.symm ▸ h⟩
    · rw [hsame, hcount]
      exact hle
    · rw [hsame]
      exact h.distinct
    · rw [hsame]
      exact hx
  · have hentries : ∃ es, es.Sublist r.entries ∧ es.length ≤ 4 ∧
        (r.plcRefreshExecErrorRecord x).entries = es ++ [(x.addr, x.code.setWidth 16)] := by
      rcases Nat.lt_or_eq_of_le hle with hlt | heq
      · exact ⟨_, Sublist.refl _, by omega, entries_enter hlt hx⟩
      · exact ⟨_, tail_sublist _, by rw [length_tail]; omega, entries_drop heq hx⟩
    obtain ⟨es, hsub, hshort, hes⟩ := hentries
    have haddrs : (r.plcRefreshExecErrorRecord x).addrs = es.map Prod.fst ++ [x.addr] := by
      rw [addrs, hes, map_append]
      rfl
    have hdistinct : (r.plcRefreshExecErrorRecord x).addrs.Nodup := by
      rw [haddrs, nodup_append]
      refine ⟨h.distinct.sublist (hsub.map _), nodup_singleton _, fun a ha b hb => ?_⟩
      rw [mem_singleton.mp hb]
      rintro rfl
      exact hx ((hsub.map _).subset ha)
    have hshort' : (r.plcRefreshExecErrorRecord x).entries.length ≤ 5 := by
      rw [hes, length_append]
      exact Nat.succ_le_succ hshort
    refine ⟨⟨hshort', hdistinct, ?_, fun h => absurd h hx, fun _ hlt => ?_, fun _ heq => ?_⟩,
      length_entries ▸ hshort', hdistinct⟩
    · rw [haddrs]
      exact mem_append_right _ mem_cons_self
    · exact entries_enter (hcount ▸ hlt) hx
    · exact entries_drop (hcount ▸ heq) hx

theorem inv_cleaned (r : ErrorRecord) : r.cleaned.Inv := ⟨Nat.zero_le 5, nodup_nil⟩

end ErrorRecord

/-! ## The codes that are shown -/

/-- The bits that are set for a code. -/
def flagError (code : BitVec 8) (s : Store) : Store :=
  let s := s.setBit (.elem .SM) 20 true
  match code.toNat with
  | 60 | 61 | 62 | 63 => { s with errorStatusStop := true }
  | 64 | 230 => s.setBit (.elem .SM) 22 true
  | 65 => s.setBit (.elem .SM) 21 true
  | _ => s

/-- The codes move by one place, and a new one comes first. -/
def showError (code : BitVec 8) (s : Store) : Store :=
  if s.word .SD 20 = code.setWidth 16 then s
  else
    let s := [24, 23, 22, 21].foldl (fun s i => s.setWord (.elem .SD) i (s.word .SD (i - 1))) s
    s.setWord (.elem .SD) 20 (code.setWidth 16)

/-- `plc_refresh_error_msg`, for all codes. -/
def refreshErrorCode (s : Store) (code : BitVec 8) : Store := showError code (flagError code s)

theorem plcRefreshErrorMsg_eq (e : PlcErr) (s : Store) :
    plcRefreshErrorMsg e s = refreshErrorCode s (BitVec.ofNat 8 e.code) := by
  cases e <;> rfl

/-- The elements after `plc_clean_user_run_error_flag`. -/
def cleanErrorCodes (s : Store) : Store :=
  [20, 21, 22, 23, 24].foldl (fun s i => s.setWord (.elem .SD) i 0)
    (s.setBit (.elem .SM) 20 false)

theorem word_flagError (code : BitVec 8) (s : Store) : (flagError code s).word = s.word := by
  unfold flagError
  split <;> rfl

theorem word_showError (code : BitVec 8) (s : Store) {k : Nat} (hk : k < 5) :
    (showError code s).word .SD (20 + k) =
      if s.word .SD 20 = code.setWidth 16 then s.word .SD (20 + k)
      else if k = 0 then code.setWidth 16 else s.word .SD (20 + (k - 1)) := by
  unfold showError
  split
  · rfl
  · interval_cases k <;> rfl

/-- The codes of a sequence, the last one first, with repetitions in one. -/
def lastCodes (codes : List (BitVec 8)) : List (BitVec 8) := codes.reverse.destutter (· ≠ ·)

theorem head?_destutter' (c : BitVec 8) (ds : List (BitVec 8)) :
    (ds.destutter' (· ≠ ·) c).head? = some c := by
  induction ds with
  | nil => rfl
  | cons d ds ih =>
    rw [destutter'_cons]
    split
    · rfl
    · exact ih

theorem lastCodes_snoc (codes : List (BitVec 8)) (code : BitVec 8) :
    lastCodes (codes ++ [code]) =
      if (lastCodes codes).head? = some code then lastCodes codes else code :: lastCodes codes := by
  rw [lastCodes, lastCodes, reverse_append]
  change (code :: codes.reverse).destutter (· ≠ ·) = _
  cases codes.reverse with
  | nil => rfl
  | cons d ds =>
    rw [destutter_cons_cons, destutter_cons', head?_destutter']
    by_cases h : code = d
    · rw [h, if_neg (not_not.mpr rfl), if_pos rfl]
    · rw [if_pos h, if_neg (fun he => h (Option.some.inj he).symm)]

theorem setWidth_code_inj {c d : BitVec 8} (h : c.setWidth 16 = d.setWidth 16) : c = d := by
  refine BitVec.eq_of_toNat_eq ?_
  have hnat := congrArg BitVec.toNat h
  rwa [BitVec.toNat_setWidth_of_le (by decide)] at hnat

/-- `SD20..24` show the last codes after any sequence of calls. -/
theorem word_lastCodes (s : Store) (codes : List (BitVec 8)) : ∀ k < 5,
    (codes.foldl refreshErrorCode (cleanErrorCodes s)).word .SD (20 + k) =
      ((lastCodes codes).getD k 0).setWidth 16 := by
  induction codes using reverseRecOn with
  | nil =>
    intro k hk
    interval_cases k <;> rfl
  | append_singleton codes code ih =>
    intro k hk
    rw [foldl_append, foldl_cons, foldl_nil, refreshErrorCode,
      word_showError _ _ hk, word_flagError, lastCodes_snoc]
    have hfirst : (codes.foldl refreshErrorCode (cleanErrorCodes s)).word .SD 20 =
        ((lastCodes codes).getD 0 0).setWidth 16 := ih 0 (by decide)
    have hmoved (hpos : k ≠ 0) : (codes.foldl refreshErrorCode (cleanErrorCodes s)).word .SD
        (20 + (k - 1)) = ((code :: lastCodes codes).getD k 0).setWidth 16 := by
      obtain ⟨j, rfl⟩ := Nat.exists_eq_add_one_of_ne_zero hpos
      exact ih j (Nat.lt_of_succ_lt hk)
    by_cases hcode : (codes.foldl refreshErrorCode (cleanErrorCodes s)).word .SD 20 =
        code.setWidth 16
    · have hsame : (lastCodes codes).getD 0 0 = code := setWidth_code_inj (hfirst ▸ hcode)
      rw [if_pos hcode, ih k hk]
      cases hcodes : lastCodes codes with
      | nil =>
        rw [hcodes] at hsame
        obtain rfl : 0 = code := hsame
        cases k <;> rfl
      | cons d ds =>
        rw [hcodes] at hsame
        have hhead : (d :: ds).head? = some code := congrArg some hsame
        rw [if_pos hhead]
    · have hother : (lastCodes codes).head? ≠ some code := by
        intro hhead
        rw [hfirst, getD_eq_getElem?_getD, ← head?_eq_getElem?, hhead] at hcode
        exact hcode rfl
      rw [if_neg hcode]
      split
      · rename_i hzero
        rw [hzero]
        rfl
      · rename_i hpos
        exact hmoved hpos

/-! ## Both -/

/-- Every call keeps the record right, and `SD20..24` show the last five codes. -/
theorem errors_recorded (r : ErrorRecord) (xs : List ErrorReport) (s : Store)
    (codes : List (BitVec 8)) :
    Each ErrorRecord.plcRefreshExecErrorRecord ErrorRecord.Right r.cleaned xs ∧
    ∀ k < 5, (codes.foldl refreshErrorCode (cleanErrorCodes s)).word .SD (20 + k) =
      ((lastCodes codes).getD k 0).setWidth 16 := by
  have hall : Each ErrorRecord.plcRefreshExecErrorRecord (fun _ _ => True) r.cleaned xs :=
    fun _ _ _ _ => trivial
  exact ⟨Each.of_invariant r.inv_cleaned hall fun _ x h _ => h.right x, word_lastCodes s codes⟩

/-- Another error at an address that is in the record. -/
theorem code_not_recorded : ¬ ∀ (r : ErrorRecord) (xs : List ErrorReport),
    Each ErrorRecord.plcRefreshExecErrorRecord ErrorRecord.HasCode r.cleaned xs := by
  intro h
  have hcode := h ⟨0, fun _ => 0, fun _ => 0⟩ [⟨64, 0⟩, ⟨65, 0⟩] [⟨64, 0⟩] ⟨65, 0⟩ [] rfl
  unfold ErrorRecord.HasCode at hcode
  exact absurd hcode (by decide)

end Kalyke
