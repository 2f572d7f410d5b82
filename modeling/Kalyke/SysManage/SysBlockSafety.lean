-- SUMMARY: When the system block is parsed within its bounds: reads, tables, and the section loop.
import Kalyke.SysManage.SysBlockLists

/-!
# Parsing Within Bounds

Nothing compares the lengths and counts of a system block with the length of its file or the sizes
of the tables, but for the number of interrupt priorities. Parsing is safe just for the blocks whose
sections fit: each list ends inside the file and its table, and every section is at least as long as
its head.
-/

namespace Kalyke

open Traced SysBlock

variable {b : SysBlock} {e p q n i k v : Nat}

/-! ## Sections of a Fixed Length -/

theorem sat_ofLength {body : Parse Unit} {Q : Nat → Prop} (hp : p + 4 < e) :
    Sat (Touch.Inside e) (b.ofLength n p body) Q ↔
      (b.sectionLen p = n →
        Sat (Touch.Inside e) body fun _ => Q (p + b.sectionLen p)) := by
  unfold SysBlock.ofLength SysBlock.sectionLen
  simp only [sat_bind, sat_getU16, sat_ite, sat_giveUp, sat_pure, not_not, implies_true, true_and]
  exact and_iff_right (by omega)

theorem sat_plcParseSysblkPlsdConfig {Q : Unit → Prop} :
    Sat (Touch.Inside e) (b.plcParseSysblkPlsdConfig p) Q ↔
      (b.isSupportPlsd = true → p + 44 ≤ e) ∧ Q () := by
  have hround (i : Nat) (Q : Unit → Prop) :
      Sat (Touch.Inside e) (b.plcParseSysblkPlsdDataProcessing (p + 4 + 8 * i) i) Q ↔
        p + 12 + 8 * i ≤ e ∧ Q () := by
    unfold SysBlock.plcParseSysblkPlsdDataProcessing
    simp only [sat_bind, sat_getU16, sat_setCell, SysCell.Inside, true_and, ← and_assoc]
    exact and_congr_left fun _ => by omega
  unfold SysBlock.plcParseSysblkPlsdConfig
  rw [sat_ite, sat_loop_forall (s := fun _ => ()) fun i _ Q => hround i Q, sat_pure]
  have hlast : (∀ i < 5, p + 12 + 8 * i ≤ e) ↔ p + 44 ≤ e :=
    ⟨fun h => h 4 (by omega), fun h i hi => by omega⟩
  rw [hlast]
  cases b.isSupportPlsd <;> simp

theorem sat_outputPoint {Q : Nat → Prop} (hp : p + 4 < e) :
    Sat (Touch.Inside e) (b.outputPoint p) Q ↔
      (b.sectionLen p = 22 → p + 22 ≤ e ∧ Q (p + b.sectionLen p)) := by
  unfold SysBlock.outputPoint
  rw [sat_ofLength hp]
  refine imp_congr_right fun _ => ?_
  simp only [sat_bind, sat_getU16, sat_setCell, SysCell.Inside, true_and]
  have hround (i : Nat) (Q : Unit → Prop) :
      Sat (Touch.Inside e) (b.parseOutValue p i) Q ↔ p + 8 + 2 * i ≤ e ∧ Q () := by
    unfold SysBlock.parseOutValue
    simp only [sat_bind, sat_getU16, sat_setCell, SysCell.Inside, true_and]
    exact and_congr_left fun _ => by omega
  rw [sat_loop_forall (s := fun _ => ()) fun i _ Q => hround i Q, ← and_assoc]
  refine and_congr_left fun _ => ?_
  constructor
  · intro h
    have := h.2 7 (by omega)
    omega
  · intro h
    exact ⟨by omega, fun i hi => by omega⟩

theorem sat_limited {lo hi : Nat} {Q : Nat → Prop} (hp : p + 4 < e) :
    Sat (Touch.Inside e) (b.limited n lo hi p) Q ↔
      (b.sectionLen p = 6 → p + 6 ≤ e ∧ Q (p + b.sectionLen p)) := by
  unfold SysBlock.limited
  rw [sat_ofLength hp]
  simp only [sat_bind, sat_getU16, sat_setCell, SysCell.Inside, true_and]

theorem sat_intPriority {Q : Nat → Prop} (hp : p + 4 < e) :
    Sat (Touch.Inside e) (b.intPriority p) Q ↔
      (p + 6 ≤ e ∧ (b.file.getPU16 (p + 4) ≤ maxSysIntNum → ∀ i < b.file.getPU16 (p + 4),
        (∀ j < i, ValidPriority (b.file.getPU8 (p + 6 + j))) → p + 7 + i ≤ e)) ∧
      (b.file.getPU16 (p + 4) ≤ maxSysIntNum ∧
        (∀ j < b.file.getPU16 (p + 4), ValidPriority (b.file.getPU8 (p + 6 + j))) →
          Q (p + b.sectionLen p)) := by
  have hround : ∀ i < b.file.getPU16 (p + 4), b.file.getPU16 (p + 4) ≤ maxSysIntNum →
      ∀ Q : Unit → Prop, Sat (Touch.Inside e) (b.parsePriority p i) Q ↔
      p + 7 + i ≤ e ∧ (ValidPriority (b.file.getPU8 (p + 6 + i)) → Q ()) := by
    intro i hi hcount Q
    have hin : i < maxSysIntNum := by omega
    unfold SysBlock.parsePriority
    simp only [sat_bind, sat_getU8, sat_ite, sat_giveUp, sat_setCell, SysCell.Inside, hin, true_and,
      implies_true]
    refine and_congr (by omega) (imp_congr_left ?_)
    unfold ValidPriority
    omega
  unfold SysBlock.intPriority SysBlock.sectionLen
  simp only [sat_bind, sat_getU16, sat_ite, sat_giveUp, implies_true, true_and, sat_pure, Nat.not_lt]
  by_cases hcount : b.file.getPU16 (p + 4) ≤ maxSysIntNum
  · rw [sat_loop (s := fun _ => ()) (G := fun i => ValidPriority (b.file.getPU8 (p + 6 + i)))
      fun i hi Q => hround i hi hcount Q]
    simp only [hcount, true_imp_iff, true_and]
    have hhead : p + 2 + 2 ≤ e := by omega
    have hcountRead : p + 4 + 2 ≤ e ↔ p + 6 ≤ e := by omega
    rw [and_iff_right hhead, hcountRead, and_assoc]
  · simp only [hcount, false_imp_iff, false_and, and_true]
    omega

/-! ## Sections by Their Codes -/

def SysBlock.Accepts (b : SysBlock) (p : Nat) : SysCode → Prop
  | .batterySave => b.sectionLen p = 44
  | .outputPoint => b.sectionLen p = 22
  | .watchDogTime | .scanTime | .losePowerCheckTime | .fexlinkCycleTime | .advancedSetting
  | .runInputPoint => b.sectionLen p = 6
  | .digitFilterTime => b.sectionLen p = 8
  | .digitFilterTime1 => b.sectionLen p = 20
  | .plcRole => b.sectionLen p = 10
  | .intPriority => b.file.getPU16 (p + 4) ≤ maxSysIntNum ∧
      ∀ i < b.file.getPU16 (p + 4), ValidPriority (b.file.getPU8 (p + 6 + i))
  | .modlink => b.modbusTcpSheet = true ∨ b.sectionLen p = 6 ∨ b.ModlinkOk p
  | .modbusTcpClient | .busConfig | .ethercatConfig | .ethercatMaster | .skipped => True

/-- The section at `p` fits, as far as it is read, into the file and the tables. -/
def SysBlock.Fits (b : SysBlock) (p : Nat) : SysCode → Prop
  | .batterySave => b.sectionLen p = 44 → b.isSupportPlsd = true → p + 44 ≤ b.fileLen
  | .outputPoint => b.sectionLen p = 22 → p + 22 ≤ b.fileLen
  | .watchDogTime | .scanTime | .losePowerCheckTime | .fexlinkCycleTime | .advancedSetting
  | .runInputPoint => b.sectionLen p = 6 → p + 6 ≤ b.fileLen
  | .digitFilterTime => b.sectionLen p = 8 → p + 8 ≤ b.fileLen
  | .plcRole => b.sectionLen p = 10 → p + 6 ≤ b.fileLen
  | .intPriority => p + 6 ≤ b.fileLen ∧ (b.file.getPU16 (p + 4) ≤ maxSysIntNum →
      ∀ i < b.file.getPU16 (p + 4),
        (∀ j < i, ValidPriority (b.file.getPU8 (p + 6 + j))) → p + 7 + i ≤ b.fileLen)
  | .modlink => b.modbusTcpSheet = true ∨ b.sectionLen p = 6 ∨ b.ModlinkFits p
  | .modbusTcpClient => b.modbusTcpSheet = true ∨ b.TcpFits p
  | .busConfig => b.flag = 1 → b.BusFits p
  | .ethercatConfig => b.flag = 1 → b.SoemFits p
  | .ethercatMaster => p + 10 ≤ b.fileLen
  | .digitFilterTime1 | .skipped => True

/-- A section touches what it should just if it fits, and goes on by its length just if it is
accepted. A bus configuration that gives up stays where it is, which is not allowed here. -/
theorem sat_parseCode {Q : Nat → Prop} (k : SysCode) (hp : p + 4 < b.fileLen) (hQ : ¬ Q p) :
    Sat (Touch.Inside b.fileLen) (b.parseCode p k) Q ↔
      b.Fits p k ∧ (b.Accepts p k → Q (p + b.sectionLen p)) := by
  have hskip : Sat (Touch.Inside b.fileLen) (b.skip p) Q ↔ Q (p + b.sectionLen p) := by
    unfold SysBlock.skip SysBlock.sectionLen
    simp only [sat_bind, sat_getU16, sat_pure]
    exact and_iff_right (by omega)
  have hstep {x : Parse Nat} : Sat (Touch.Inside b.fileLen) (stepBy p x) Q ↔
      Sat (Touch.Inside b.fileLen) x fun len => Q (p + len) := by
    unfold stepBy
    simp only [sat_bind, sat_pure]
  cases k with
  | batterySave =>
    unfold SysBlock.parseCode SysBlock.batterySave SysBlock.Fits SysBlock.Accepts
    rw [sat_ofLength hp, ← imp_and]
    exact imp_congr_right fun _ => sat_plcParseSysblkPlsdConfig
  | outputPoint =>
    unfold SysBlock.parseCode SysBlock.Fits SysBlock.Accepts
    rw [sat_outputPoint hp, ← imp_and]
  | watchDogTime =>
    unfold SysBlock.parseCode SysBlock.watchDogTime SysBlock.Fits SysBlock.Accepts
    rw [sat_limited hp, ← imp_and]
  | losePowerCheckTime =>
    unfold SysBlock.parseCode SysBlock.losePowerCheckTime SysBlock.Fits SysBlock.Accepts
    rw [sat_limited hp, ← imp_and]
  | fexlinkCycleTime =>
    unfold SysBlock.parseCode SysBlock.fexlinkCycleTime SysBlock.Fits SysBlock.Accepts
    rw [sat_ofLength hp, ← imp_and]
    simp only [sat_bind, sat_getU16, sat_setCell, SysCell.Inside, true_and]
  | scanTime =>
    unfold SysBlock.parseCode SysBlock.scanTime SysBlock.Fits SysBlock.Accepts
    rw [sat_ofLength hp, ← imp_and]
    simp only [sat_bind, sat_getU16, sat_setCell, sat_ite, sat_pure, SysCell.Inside, true_and]
    by_cases hw : b.file.getPU16 (p + 4) = 0 <;> simp [hw]
  | digitFilterTime =>
    unfold SysBlock.parseCode SysBlock.digitFilterTime SysBlock.Fits SysBlock.Accepts
    rw [sat_ofLength hp, ← imp_and]
    simp only [sat_bind, sat_getU16, sat_setCell, SysCell.Inside, true_and, ← and_assoc]
    exact imp_congr_right fun _ => and_congr_left fun _ => by omega
  | digitFilterTime1 =>
    unfold SysBlock.parseCode SysBlock.digitFilterTime1 SysBlock.Fits SysBlock.Accepts
    rw [sat_ofLength hp, true_and]
    simp only [sat_pure]
  | advancedSetting =>
    unfold SysBlock.parseCode SysBlock.advancedSetting SysBlock.Fits SysBlock.Accepts
    rw [sat_ofLength hp, ← imp_and]
    simp only [sat_bind, sat_getU16, sat_setCell, SysCell.Inside, true_and]
  | runInputPoint =>
    unfold SysBlock.parseCode SysBlock.runInputPoint SysBlock.Fits SysBlock.Accepts
    rw [sat_ofLength hp, ← imp_and]
    simp only [sat_bind, sat_getU16, sat_setCell, sat_ite, SysCell.Inside, true_and]
    by_cases hw : b.file.getPU16 (p + 4) = 0 <;> simp [hw]
  | intPriority => exact sat_intPriority hp
  | modlink =>
    unfold SysBlock.parseCode SysBlock.modlink SysBlock.Fits SysBlock.Accepts
    cases b.modbusTcpSheet
    · simp only [Bool.false_eq_true, if_false, false_or, sat_bind, sat_getU16, sat_ite, sat_pure,
        sat_plcParseSysblkModlinkConfig]
      rw [and_iff_right (show p + 2 + 2 ≤ b.fileLen by omega),
        show b.file.getPU16 (p + 2) = b.sectionLen p from rfl]
      by_cases hsix : b.sectionLen p = 6 <;> simp [hsix]
    · simp [hskip]
  | modbusTcpClient =>
    unfold SysBlock.parseCode SysBlock.modbusTcpClient SysBlock.Fits SysBlock.Accepts
    cases b.modbusTcpSheet
    · simp [hstep, sat_parseModbusTcpClient hp]
    · simp [hskip]
  | busConfig =>
    unfold SysBlock.parseCode SysBlock.busConfig SysBlock.Fits SysBlock.Accepts
    by_cases hflag : b.flag = 1
    · rw [if_pos hflag, hstep, sat_parseBusConfig hQ hp]
      simp [hflag]
    · rw [if_neg hflag, hskip]
      simp only [hflag, false_imp_iff, true_and, true_imp_iff]
  | ethercatConfig =>
    unfold SysBlock.parseCode SysBlock.ethercatConfig SysBlock.Fits SysBlock.Accepts
    by_cases hflag : b.flag = 1
    · rw [if_pos hflag, hstep, sat_parseEthercatConfig hp]
      simp [hflag]
    · rw [if_neg hflag, hskip]
      simp only [hflag, false_imp_iff, true_and, true_imp_iff]
  | ethercatMaster =>
    unfold SysBlock.parseCode SysBlock.Fits SysBlock.Accepts
    rw [hstep]
    unfold SysBlock.parseEthercatMaster SysBlock.sectionLen
    simp only [sat_bind, sat_getU8, sat_getU16, sat_setCell, SysCell.Inside, true_and, sat_pure,
      ← and_assoc, true_imp_iff]
    exact and_congr_left fun _ => by omega
  | plcRole =>
    unfold SysBlock.parseCode SysBlock.plcRole SysBlock.Fits SysBlock.Accepts
    rw [sat_ofLength hp, ← imp_and]
    simp only [sat_bind, sat_getU8, sat_setCell, SysCell.Inside, true_and, ← and_assoc]
    exact imp_congr_right fun _ => and_congr_left fun _ => by omega
  | skipped =>
    unfold SysBlock.parseCode SysBlock.Fits SysBlock.Accepts
    rw [hskip, true_and, true_imp_iff]

/-! ## The Section Loop -/

/-- The section loop comes to `p` when it steps over accepted sections by their lengths. -/
inductive SysBlock.Visits (b : SysBlock) : Nat → Prop where
  | first : firstSection < b.sectionsEnd → b.Visits firstSection
  | next (p : Nat) (k : SysCode) : b.Visits p → sysCode (b.file.getPU16 p) = some k → b.Accepts p k →
      p + b.sectionLen p < b.sectionsEnd → b.Visits (p + b.sectionLen p)

/-- The section at `p` fits, and one that is accepted is at least as long as its head. -/
def SysBlock.GoodSection (b : SysBlock) (p : Nat) : Prop :=
  ∀ k, sysCode (b.file.getPU16 p) = some k → b.Fits p k ∧ (b.Accepts p k → 4 ≤ b.sectionLen p)

/-- A file with a head whose sections are good as far as the loop comes. -/
structure SysBlock.WellFormed (b : SysBlock) : Prop where
  head : 10 ≤ b.fileLen
  good : ∀ p, b.Visits p → b.GoodSection p

/-- A call ends. The length in the head is read inside the file, and every round of the loop touches
only the file and the tables and returns or advances by four bytes or more. -/
structure SysBlock.Safe (b : SysBlock) (s : SysBlockState) : Prop where
  terminates : ∃ n r, b.plcParseSystemBlock n s = some r
  head : s.sysblockErr = false → (Touch.read 6 4).Inside b.fileLen
  round : s.sysblockErr = false → ∀ t, b.sectionLoop.Reaches (firstSection, s) t →
    t.1 < b.sectionsEnd →
      Sat (Touch.Inside b.fileLen) (b.parseSection t.1) fun p => t.1 + 4 ≤ p

section

variable {s : SysBlockState} {t t' : Nat × SysBlockState}

theorem visits_lt (h : b.Visits p) : p < b.sectionsEnd := by
  cases h with
  | first h => exact h
  | next _ _ _ _ _ h => exact h

theorem sat_parseSection (hp : p < b.sectionsEnd) :
    Sat (Touch.Inside b.fileLen) (b.parseSection p) (fun p' => p + 4 ≤ p') ↔ b.GoodSection p := by
  have hlt : p + 4 < b.fileLen := by
    unfold SysBlock.sectionsEnd at hp
    omega
  unfold SysBlock.parseSection SysBlock.GoodSection
  rw [sat_bind, sat_getU16, and_iff_right (show p + 2 ≤ b.fileLen by omega)]
  cases hcode : sysCode (b.file.getPU16 p) with
  | none => exact iff_of_true (sat_giveUp.mpr trivial) fun k hk => by cases hk
  | some k =>
    dsimp only
    rw [sat_parseCode k hlt (by omega)]
    constructor
    · rintro ⟨hfits, hlen⟩ k' hk'
      cases hk'
      exact ⟨hfits, fun hok => by have := hlen hok; omega⟩
    · intro h
      obtain ⟨hfits, hlen⟩ := h k rfl
      exact ⟨hfits, fun hok => by have := hlen hok; omega⟩

/-- A good section leads to the next one by its length if it is accepted, and else nowhere. -/
theorem parseSection_result (hp : p < b.sectionsEnd) (hgood : b.GoodSection p) :
    (b.parseSection p).result = some q ↔
      (∃ k, sysCode (b.file.getPU16 p) = some k ∧ b.Accepts p k) ∧ q = p + b.sectionLen p := by
  have hlt : p + 4 < b.fileLen := by
    unfold SysBlock.sectionsEnd at hp
    omega
  have hhead : p + 2 ≤ b.fileLen := by omega
  have hsat {Q : Nat → Prop} (k : SysCode) (hk : sysCode (b.file.getPU16 p) = some k) (hQ : ¬ Q p) :
      Sat (Touch.Inside b.fileLen) (b.parseSection p) Q ↔
        (b.Accepts p k → Q (p + b.sectionLen p)) := by
    unfold SysBlock.parseSection
    rw [sat_bind, sat_getU16, hk, and_iff_right hhead]
    dsimp only
    rw [sat_parseCode k hlt hQ, and_iff_right (hgood k hk).1]
  cases hcode : sysCode (b.file.getPU16 p) with
  | none =>
    constructor
    · intro h
      have hnone : Sat (Touch.Inside b.fileLen) (b.parseSection p) fun _ => False := by
        unfold SysBlock.parseSection
        rw [sat_bind, sat_getU16, hcode]
        exact ⟨hhead, sat_giveUp.mpr trivial⟩
      exact absurd (hnone.result q h) id
    · rintro ⟨⟨k, hk, -⟩, -⟩
      cases hk
  | some k =>
    have hnext : ∀ q', (b.parseSection p).result = some q' →
        b.Accepts p k ∧ q' = p + b.sectionLen p := by
      intro q' hq'
      have h := (hsat k hcode (Q := fun a => b.Accepts p k ∧ a = p + b.sectionLen p ∧ a ≠ p)
        fun h => h.2.2 rfl).mpr fun hok => ⟨hok, rfl, by have := (hgood k hcode).2 hok; omega⟩
      obtain ⟨hok, heq, -⟩ := h.result q' hq'
      exact ⟨hok, heq⟩
    constructor
    · intro h
      obtain ⟨hok, heq⟩ := hnext q h
      exact ⟨⟨k, rfl, hok⟩, heq⟩
    · rintro ⟨⟨k', hk', hok⟩, rfl⟩
      cases hk'
      cases hresult : (b.parseSection p).result with
      | some q' => rw [(hnext q' hresult).2]
      | none =>
        -- a section that is accepted does not give up
        have htouch : Sat (Touch.Inside b.fileLen) (b.parseSection p) fun a => a ≠ p :=
          (hsat k hcode fun h => h rfl).mpr fun _ => by have := (hgood k hcode).2 hok; omega
        have hnever : Sat (Touch.Inside b.fileLen) (b.parseSection p) fun _ => False :=
          ⟨htouch.notes, fun a ha => by rw [hresult] at ha; cases ha⟩
        exact absurd hok ((hsat k hcode id).mp hnever)

theorem sectionLoop_step_iff : b.sectionLoop.Step t t' ↔ t.1 < b.sectionsEnd ∧
    ∃ q, (b.parseSection t.1).result = some q ∧
      t' = (q, { t.2 with config := applyTouches (b.parseSection t.1).notes t.2.config }) := by
  unfold WhileLoop.Step SysBlock.sectionLoop
  dsimp only
  split <;> rename_i hlt
  · cases hresult : (b.parseSection t.1).result with
    | none => simp
    | some q => simp [hlt, eq_comm]
  · simp [hlt]

theorem visits_of_reaches (h : b.WellFormed) (hreach : b.sectionLoop.Reaches (firstSection, s) t) :
    t.1 < b.sectionsEnd → b.Visits t.1 := by
  refine hreach.invariant (I := fun t => t.1 < b.sectionsEnd → b.Visits t.1) ?_ .first
  intro t t' ht hstep
  obtain ⟨hlt, q, hresult, rfl⟩ := sectionLoop_step_iff.mp hstep
  obtain ⟨⟨k, hk, hok⟩, rfl⟩ := (parseSection_result hlt (h.good t.1 (ht hlt))).mp hresult
  exact .next t.1 k (ht hlt) hk hok

/-- Where every round is safe, the loop comes to every section that it should. -/
theorem reaches_of_visits (h : b.Safe s) (hs : s.sysblockErr = false) (hp : b.Visits p) :
    ∃ s', b.sectionLoop.Reaches (firstSection, s) (p, s') := by
  induction hp with
  | first _ => exact ⟨s, .refl⟩
  | next p k hp hk hok _ ih =>
    obtain ⟨s', hreach⟩ := ih
    have hlt := visits_lt hp
    have hgood := (sat_parseSection hlt).mp (h.round hs _ hreach hlt)
    have hresult := (parseSection_result hlt hgood).mpr ⟨⟨k, hk, hok⟩, rfl⟩
    exact ⟨_, hreach.tail (sectionLoop_step_iff.mpr ⟨hlt, _, hresult, rfl⟩)⟩

end

/-- Parsing is safe just for a block that is well formed, or not parsed at all. -/
theorem plcParseSystemBlock_safe_iff (b : SysBlock) (s : SysBlockState) :
    b.Safe s ↔ (s.sysblockErr = false → b.WellFormed) := by
  constructor
  · intro h hs
    refine ⟨h.head hs, fun p hp => ?_⟩
    obtain ⟨s', hreach⟩ := reaches_of_visits h hs hp
    have hlt := visits_lt hp
    exact (sat_parseSection hlt).mp (h.round hs _ hreach hlt)
  · intro h
    cases hs : s.sysblockErr with
    | true =>
      refine ⟨⟨0, (false, s), ?_⟩, fun hno => ?_, fun hno => ?_⟩
      · unfold SysBlock.plcParseSystemBlock
        rw [if_pos hs]
      · rw [hs] at hno
        cases hno
      · rw [hs] at hno
        cases hno
    | false =>
      have hwell := h hs
      have hround : ∀ t, b.sectionLoop.Reaches (firstSection, s) t → t.1 < b.sectionsEnd →
          Sat (Touch.Inside b.fileLen) (b.parseSection t.1) fun p => t.1 + 4 ≤ p :=
        fun t ht hlt => (sat_parseSection hlt).mpr (hwell.good _ (visits_of_reaches hwell ht hlt))
      refine ⟨?_, fun _ => hwell.head, fun _ => hround⟩
      -- every round brings the loop nearer to its end
      have hends : b.sectionLoop.Terminates (firstSection, s) := by
        refine WhileLoop.terminates_of_measure (fun t => b.sectionsEnd - t.1) fun t t' ht hstep => ?_
        obtain ⟨hlt, q, hresult, rfl⟩ := sectionLoop_step_iff.mp hstep
        have hle := (hround t ht hlt).result q hresult
        dsimp only
        omega
      obtain ⟨r, n, hn⟩ := hends
      refine ⟨n, r, ?_⟩
      unfold SysBlock.plcParseSystemBlock
      rw [if_neg (by rw [hs]; exact Bool.false_ne_true), hn]

/-- A block whose one section says that it has no length: `09 AA 00 00`. -/
def zeroLengthBlock : SysBlock where
  file := [0, 0, 0, 0, 0, 0, 32, 0, 0, 0] ++ List.replicate 14 0 ++ [0x09, 0xAA, 0, 0, 0, 0, 0, 0]
  flag := 1
  isSupportPlsd := true
  modbusTcpSheet := true
  malloc := fun _ _ => true

/-- The section loop stays at that section forever. -/
theorem zero_length_never_ends : ¬ ∀ (b : SysBlock) (s : SysBlockState), b.Safe s := by
  intro h
  have hlt : firstSection < zeroLengthBlock.sectionsEnd := by decide
  have hstays : (zeroLengthBlock.parseSection firstSection).result = some firstSection := by decide
  obtain ⟨n, r, hn⟩ := (h zeroLengthBlock ⟨fun _ => 0, false, false⟩).terminates
  refine WhileLoop.not_terminates_of_trap (T := fun t => t.1 = firstSection) ?_ .refl rfl ⟨r, n, hn⟩
  rintro ⟨p, s⟩ rfl
  exact ⟨_, sectionLoop_step_iff.mpr ⟨hlt, _, hstays, rfl⟩, rfl⟩

end Kalyke
