-- SUMMARY: The passwords for downloading, uploading and monitoring, and the access they give.
import Kalyke.Modbus.Ctrl
import Kalyke.Lib.Runs

/-!
# Passwords

A password can be set for each of several purposes. A host that has presented it has access until it
has not been granted a request for five minutes. The passwords are kept in the flash memory, too,
from which they are read when the device has been restarted and when the program starts.

What the device does is compared with what a host is promised. Time is counted in milliseconds since
the start of the device. The device sees it as a number of ticks of 32 bits, and keeps the lowest
byte of it.
-/

namespace Kalyke

open BitVec Function Option

def maxPasswordValidity : Nat := 300000

/-- `plc_password_st`. -/
structure PlcPassword where
  isEnable : Bool
  checkPass : Bool
  checkTime : Byte
  len : Byte
  password : Buff

/-- `plc_password_info_st`, without the check sum at its end. -/
structure PlcPasswordInfo where
  head : BitVec 16
  uploadForbid : Byte
  item : Password → PlcPassword

/-- The passwords in use, those in the flash memory with their check sum, and the time. -/
structure PasswordState where
  info : PlcPasswordInfo
  flash : Option (PlcPasswordInfo × BitVec 32)
  time : Nat

/-- The bytes that have to be presented; none if no password is needed. -/
def PlcPassword.valid (w : PlcPassword) : Option (List Byte) :=
  if w.isEnable then some (w.password.bytes w.len.toNat) else none

def plcPasswordInit (tick : BitVec 32) : PlcPasswordInfo where
  head := 0xAA55
  uploadForbid := 0
  item _ := ⟨false, false, tick.setWidth 8, BitVec.ofNat 8 maxPasswordLen, fun _ => 0⟩

namespace PasswordState

/-- `GET_1MS_TICKS_COUNT`. -/
def tick (s : PasswordState) : BitVec 32 := BitVec.ofNat 32 s.time

def setItem (s : PasswordState) (p : Password) (w : PlcPassword) : PasswordState :=
  { s with info := { s.info with item := update s.info.item p w } }

/-- A device that has just been started for the first time. -/
def init : PasswordState := ⟨plcPasswordInit 0, none, 0⟩

section

variable (crc : PlcPasswordInfo → BitVec 32)

def plcReadPasswordInfo (s : PasswordState) : PasswordState :=
  match s.flash with
  | none => s
  | some (stored, c) =>
    if stored.head ≠ 0xAA55 then s
    else if crc stored ≠ c then s
    else
      { s with info := { s.info with
          uploadForbid := stored.uploadForbid
          item := fun p => { s.info.item p with
            isEnable := (stored.item p).isEnable
            len := (stored.item p).len
            password := (s.info.item p).password.copy (stored.item p).password 0
              (stored.item p).len.toNat } } }

/-- `plc_update_password_info`. The first four bytes decide whether there is a password. -/
def plcUpdatePasswordInfo (s : PasswordState) (p : Password) (newPw : List Byte) : PasswordState :=
  let password := (s.info.item p).password.putList 0 newPw
  let s := s.setItem p
    { isEnable := password.nativePU32 0 ≠ 0
      checkPass := false
      checkTime := s.tick.setWidth 8
      len := BitVec.ofNat 8 newPw.length
      password := password }
  { s with flash := some (s.info, crc s.info) }

def plcCheckPasswordInfo (s : PasswordState) (p : Password) (pw : List Byte) :
    Bool × PasswordState :=
  let w := s.info.item p
  if ¬ w.isEnable then (true, s)
  else if pw.length ≠ w.len.toNat then (false, s)
  else if pw ≠ w.password.bytes w.len.toNat then (false, s)
  else (true, s.setItem p { w with checkPass := true })

def plcGetPasswordCheckResult (s : PasswordState) (p : Password) : Bool × PasswordState :=
  let w := s.info.item p
  if ¬ w.isEnable then (true, s)
  else if maxPasswordValidity < (s.tick - w.checkTime.setWidth 32).toNat then
    (false, s.setItem p { w with checkPass := false })
  else (w.checkPass, s.setItem p { w with checkTime := s.tick.setWidth 8 })

/-- `mb_slave_ctrl_set_user_password`, as far as it is about passwords: whether it is accepted. -/
def setUserPassword (s : PasswordState) (p : Password) (oldPw newPw : List Byte) :
    Bool × PasswordState :=
  if maxPasswordLen < oldPw.length ∨ maxPasswordLen < newPw.length then (false, s)
  else match s.plcCheckPasswordInfo p oldPw with
    | (false, s) => (false, s)
    | (true, s) => (true, s.plcUpdatePasswordInfo crc p newPw)

/-- The device is started again. -/
def restart (s : PasswordState) : PasswordState :=
  { s with info := plcPasswordInit 0, time := 0 }.plcReadPasswordInfo crc

end

end PasswordState

/-! ## What Is Promised -/

/-- What a host does, or the time, the program's start or a restart of the device. -/
inductive PasswordEvent where
  | set (p : Password) (oldPw newPw : List Byte)
  | check (p : Password) (pw : List Byte)
  | request (p : Password)
  | pass (ms : Nat)
  | start
  | restart

/-- The passwords that are set, and when the password of a purpose has last been presented or a
request been granted; none if it was not, or if more than five minutes went by before a request. -/
structure Access where
  password : Password → Option (List Byte)
  last : Password → Option Nat

namespace Access

/-- No password is set. -/
def init : Access := ⟨fun _ => none, fun _ => none⟩

/-- The access has been used within the last five minutes. -/
def Recent (a : Access) (time : Nat) (p : Password) : Prop :=
  ∃ t, a.last p = some t ∧ time - t ≤ maxPasswordValidity

instance (a : Access) (time : Nat) (p : Password) : Decidable (a.Recent time p) :=
  match h : a.last p with
  | none => isFalse fun ⟨_, ht, _⟩ => by simp [h] at ht
  | some t => decidable_of_iff (time - t ≤ maxPasswordValidity) ⟨fun ht => ⟨t, h, ht⟩,
      fun ⟨_, ht, hle⟩ => by rw [h] at ht; exact some.inj ht ▸ hle⟩

/-- The password is right, or none is needed. -/
def Presents (a : Access) (p : Password) (pw : List Byte) : Prop :=
  a.password p = none ∨ a.password p = some pw

instance (a : Access) (p : Password) (pw : List Byte) : Decidable (a.Presents p pw) :=
  inferInstanceAs (Decidable (_ ∨ _))

def answer (a : Access) (time : Nat) : PasswordEvent → Bool × Access
  | .set p oldPw newPw =>
    if oldPw.length ≤ maxPasswordLen ∧ newPw.length ≤ maxPasswordLen ∧ a.Presents p oldPw then
      (true, ⟨update a.password p (if newPw = [] then none else some newPw),
        update a.last p none⟩)
    else (false, a)
  | .check p pw =>
    if a.password p = some pw then (true, { a with last := update a.last p (some time) })
    else (decide (a.password p = none), a)
  | .request p =>
    if a.password p = none then (true, a)
    else if a.Recent time p then (true, { a with last := update a.last p (some time) })
    else (false, { a with last := update a.last p none })
  | .pass _ => (true, a)
  | .start => (true, a)
  | .restart => (true, { a with last := fun _ => none })

end Access

/-- The device and what is promised. -/
structure PasswordRun where
  device : PasswordState
  access : Access

section

variable (crc : PlcPasswordInfo → BitVec 32)

def PasswordState.answer (s : PasswordState) : PasswordEvent → Bool × PasswordState
  | .set p oldPw newPw => s.setUserPassword crc p oldPw newPw
  | .check p pw => s.plcCheckPasswordInfo p pw
  | .request p => s.plcGetPasswordCheckResult p
  | .pass ms => (true, { s with time := s.time + ms })
  | .start => (true, s.plcReadPasswordInfo crc)
  | .restart => (true, s.restart crc)

namespace PasswordRun

/-- The start of a run. -/
def init : PasswordRun := ⟨.init, .init⟩

def next (s : PasswordRun) (x : PasswordEvent) : PasswordRun :=
  ⟨(s.device.answer crc x).2, (s.access.answer s.device.time x).2⟩

end PasswordRun

/-- The answer is the one promised, and after it the passwords of the device are those that are
set. -/
def PasswordEvent.Right (s : PasswordRun) (x : PasswordEvent) : Prop :=
  (s.device.answer crc x).1 = (s.access.answer s.device.time x).1 ∧
    ∀ p, ((s.next crc x).device.info.item p).valid = (s.next crc x).access.password p

end

/-- The tick counter is in the first five minutes of its turn, counted from the byte that is kept of
it. -/
def PasswordRun.InTicks (s : PasswordRun) (p : Password) : Prop :=
  (s.device.info.item p).checkTime.toNat ≤ s.device.time % 2 ^ 32 ∧
    s.device.time % 2 ^ 32 ≤ (s.device.info.item p).checkTime.toNat + maxPasswordValidity

instance (s : PasswordRun) (p : Password) : Decidable (s.InTicks p) :=
  inferInstanceAs (Decidable (_ ∧ _))

/-- A password that is accepted is not empty just if one of the first four bytes in its place is not
zero. A request for which a password has been presented comes in the first five minutes of the tick
counter just if the access has been used within five minutes. -/
def PasswordEvent.Fits (s : PasswordRun) : PasswordEvent → Prop
  | .set p oldPw newPw =>
    oldPw.length ≤ maxPasswordLen → newPw.length ≤ maxPasswordLen → s.access.Presents p oldPw →
      (newPw ≠ [] ↔ ((s.device.info.item p).password.putList 0 newPw).nativePU32 0 ≠ 0)
  | .request p =>
    s.access.password p ≠ none → (s.access.last p).isSome →
      (s.InTicks p ↔ s.access.Recent s.device.time p)
  | _ => True

/-! ## One Event -/

namespace PasswordState

variable {s : PasswordState} {p q : Password} {w : PlcPassword}

@[simp] theorem item_setItem_self : (s.setItem p w).info.item p = w := by simp [setItem]

theorem item_setItem_of_ne (h : q ≠ p) : (s.setItem p w).info.item q = s.info.item q := by
  simp [setItem, h]

theorem plcCheckPasswordInfo_eq (s : PasswordState) (p : Password) (pw : List Byte) :
    s.plcCheckPasswordInfo p pw =
      if (s.info.item p).valid = none then (true, s)
      else if (s.info.item p).valid = some pw then
        (true, s.setItem p { s.info.item p with checkPass := true })
      else (false, s) := by
  unfold plcCheckPasswordInfo PlcPassword.valid
  by_cases henable : (s.info.item p).isEnable = true
  · rw [if_neg (not_not.mpr henable), if_pos henable]
    by_cases hpw : pw = (s.info.item p).password.bytes (s.info.item p).len.toNat
    · have hlen : pw.length = (s.info.item p).len.toNat := by rw [hpw, Buff.length_bytes]
      rw [if_neg (not_not.mpr hlen), if_neg (not_not.mpr hpw), if_neg (some_ne_none _),
        if_pos (congrArg some hpw.symm)]
    · rw [if_pos hpw, ite_self, if_neg (some_ne_none _),
        if_neg fun heq => hpw (some.inj heq).symm]
  · rw [if_pos henable, if_neg henable, if_pos rfl]

/-- When the difference of the ticks and the byte that is kept of them is small. -/
theorem tick_sub_le_iff (s : PasswordState) (b : Byte) :
    ¬ maxPasswordValidity < (s.tick - b.setWidth 32).toNat ↔
      b.toNat ≤ s.time % 2 ^ 32 ∧ s.time % 2 ^ 32 ≤ b.toNat + maxPasswordValidity := by
  have hwidth : (b.setWidth 32).toNat = b.toNat := by
    rw [toNat_setWidth]
    exact Nat.mod_eq_of_lt (by omega)
  rw [toNat_sub, tick, toNat_ofNat, maxPasswordValidity]
  omega

/-- The flash memory has the passwords in use, as far as they can be presented. -/
def Stored (crc : PlcPasswordInfo → BitVec 32) (s : PasswordState) : Prop :=
  match s.flash with
  | none => ∀ p, (s.info.item p).isEnable = false
  | some (stored, c) => stored.head = 0xAA55 ∧ crc stored = c ∧
    ∀ p, (stored.item p).isEnable = (s.info.item p).isEnable ∧
      (stored.item p).len = (s.info.item p).len ∧
      ∀ j < (stored.item p).len.toNat, (stored.item p).password j = (s.info.item p).password j

end PasswordState

/-- What holds in every run whose events fit. -/
structure PasswordRun.Inv (crc : PlcPasswordInfo → BitVec 32) (s : PasswordRun) : Prop where
  valid : ∀ p, (s.device.info.item p).valid = s.access.password p
  passed : ∀ p, (s.device.info.item p).checkPass = (s.access.last p).isSome
  head : s.device.info.head = 0xAA55
  stored : s.device.Stored crc

namespace PasswordRun

variable {crc : PlcPasswordInfo → BitVec 32} {s : PasswordRun} {p : Password}
  {pw oldPw newPw : List Byte}

theorem Inv.init : PasswordRun.init.Inv crc where
  valid _ := rfl
  passed _ := rfl
  head := rfl
  stored _ := rfl

theorem Inv.isEnable_iff (h : s.Inv crc) :
    (s.device.info.item p).isEnable = true ↔ s.access.password p ≠ none := by
  rw [← h.valid p, PlcPassword.valid]
  split <;> simp_all

/-- An event after which only the note of a check differs. -/
theorem Inv.check (h : s.Inv crc) (w : PlcPassword) (last : Password → Option Nat)
    (hvalid : w.isEnable = (s.device.info.item p).isEnable ∧ w.len = (s.device.info.item p).len ∧
      w.password = (s.device.info.item p).password)
    (hpassed : w.checkPass = (last p).isSome) (hlast : ∀ q, q ≠ p → last q = s.access.last q) :
    (⟨s.device.setItem p w, { s.access with last := last }⟩ : PasswordRun).Inv crc := by
  obtain ⟨henable, hlen, hpassword⟩ := hvalid
  refine ⟨fun q => ?_, fun q => ?_, h.head, ?_⟩
  · by_cases hq : q = p
    · subst hq
      rw [PasswordState.item_setItem_self, ← h.valid q, PlcPassword.valid, PlcPassword.valid,
        henable, hlen, hpassword]
    · rw [PasswordState.item_setItem_of_ne hq, h.valid q]
  · by_cases hq : q = p
    · subst hq
      rw [PasswordState.item_setItem_self, hpassed]
    · rw [PasswordState.item_setItem_of_ne hq, h.passed q]
      exact congrArg isSome (hlast q hq).symm
  · have hitem : ∀ q, ((s.device.setItem p w).info.item q).isEnable =
          (s.device.info.item q).isEnable ∧
        ((s.device.setItem p w).info.item q).len = (s.device.info.item q).len ∧
        ((s.device.setItem p w).info.item q).password = (s.device.info.item q).password := by
      intro q
      by_cases hq : q = p
      · subst hq
        rw [PasswordState.item_setItem_self]
        exact ⟨henable, hlen, hpassword⟩
      · rw [PasswordState.item_setItem_of_ne hq]
        exact ⟨rfl, rfl, rfl⟩
    have hstored := h.stored
    unfold PasswordState.Stored at hstored ⊢
    change match s.device.flash with | none => _ | some (stored, c) => _
    cases hflash : s.device.flash with
    | none =>
      rw [hflash] at hstored
      intro q
      rw [(hitem q).1]
      exact hstored q
    | some x =>
      rw [hflash] at hstored
      refine ⟨hstored.1, hstored.2.1, fun q => ?_⟩
      rw [(hitem q).1, (hitem q).2.1, (hitem q).2.2]
      exact hstored.2.2 q

theorem right_of_answer {x : PasswordEvent} {b : Bool} {t : PasswordRun}
    (hdevice : s.device.answer crc x = (b, t.device))
    (haccess : s.access.answer s.device.time x = (b, t.access)) (ht : t.Inv crc) :
    x.Right crc s ∧ (s.next crc x).Inv crc := by
  have hnext : s.next crc x = t := by rw [next, hdevice, haccess]
  rw [PasswordEvent.Right, hnext, hdevice, haccess]
  exact ⟨⟨rfl, ht.valid⟩, ht⟩

theorem Inv.right_check (h : s.Inv crc) :
    (PasswordEvent.check p pw).Right crc s ∧ (s.next crc (.check p pw)).Inv crc := by
  have hcheck := PasswordState.plcCheckPasswordInfo_eq s.device p pw
  rw [h.valid p] at hcheck
  by_cases hnone : s.access.password p = none
  · rw [if_pos hnone] at hcheck
    refine right_of_answer hcheck ?_ h
    rw [Access.answer, hnone, if_neg (by simp), decide_eq_true rfl]
  · rw [if_neg hnone] at hcheck
    by_cases hpw : s.access.password p = some pw
    · rw [if_pos hpw] at hcheck
      refine right_of_answer (b := true) (t := ⟨_, _⟩) hcheck ?_ (h.check (p := p) _
        (update s.access.last p (some s.device.time)) ⟨rfl, rfl, rfl⟩ ?_ ?_)
      · rw [Access.answer, if_pos hpw]
      · simp
      · intro q hq
        simp [hq]
    · rw [if_neg hpw] at hcheck
      refine right_of_answer hcheck ?_ h
      rw [Access.answer, if_neg hpw, decide_eq_false hnone]

theorem Inv.answer_request (h : s.Inv crc) (hset : s.access.password p ≠ none) :
    s.device.answer crc (.request p) =
      if s.InTicks p then ((s.device.info.item p).checkPass,
        s.device.setItem p { s.device.info.item p with checkTime := s.device.tick.setWidth 8 })
      else (false, s.device.setItem p { s.device.info.item p with checkPass := false }) := by
  rw [PasswordState.answer, PasswordState.plcGetPasswordCheckResult]
  rw [if_neg (not_not.mpr (h.isEnable_iff.mpr hset))]
  have hticks := s.device.tick_sub_le_iff (s.device.info.item p).checkTime
  by_cases hin : s.InTicks p
  · rw [if_pos hin, if_neg (hticks.mpr hin)]
  · rw [if_neg hin, if_pos (not_not.mp fun hle => hin (hticks.mp hle))]

theorem Inv.request_fits (h : s.Inv crc) (hx : (PasswordEvent.request p).Fits s) :
    (PasswordEvent.request p).Right crc s ∧ (s.next crc (.request p)).Inv crc := by
  by_cases hnone : s.access.password p = none
  · have hdevice : s.device.answer crc (.request p) = (true, s.device) := by
      exact if_pos fun hon => h.isEnable_iff.mp hon hnone
    refine right_of_answer hdevice ?_ h
    rw [Access.answer, if_pos hnone]
  · have hdevice := h.answer_request hnone
    have hpassed := h.passed p
    by_cases hrecent : s.access.Recent s.device.time p
    · have hlast : (s.access.last p).isSome = true := by
        obtain ⟨t, ht, -⟩ := hrecent
        rw [ht]
        rfl
      rw [if_pos ((hx hnone hlast).mpr hrecent), hpassed, hlast] at hdevice
      refine right_of_answer (b := true) (t := ⟨_, _⟩) hdevice ?_ (h.check (p := p) _
        (update s.access.last p (some s.device.time)) ⟨rfl, rfl, rfl⟩ ?_ ?_)
      · rw [Access.answer, if_neg hnone, if_pos hrecent]
      · simp [hpassed, hlast]
      · intro q hq
        simp [hq]
    · have haccess : s.access.answer s.device.time (.request p) =
          (false, { s.access with last := update s.access.last p none }) := by
        rw [Access.answer, if_neg hnone, if_neg hrecent]
      have hlast : ∀ q, q ≠ p → update s.access.last p none q = s.access.last q := by
        intro q hq
        simp [hq]
      by_cases hin : s.InTicks p
      · have hcheck : (s.device.info.item p).checkPass = false := by
          rw [hpassed]
          by_contra hsome
          exact hrecent ((hx hnone (Bool.eq_true_of_not_eq_false hsome)).mp hin)
        rw [if_pos hin, hcheck] at hdevice
        exact right_of_answer (b := false) (t := ⟨_, _⟩) hdevice haccess
          (h.check _ _ ⟨rfl, rfl, rfl⟩ (by simp [hcheck]) hlast)
      · rw [if_neg hin] at hdevice
        exact right_of_answer (b := false) (t := ⟨_, _⟩) hdevice haccess
          (h.check _ _ ⟨rfl, rfl, rfl⟩ (by simp) hlast)

theorem Inv.fits_of_request (h : s.Inv crc) (hright : (PasswordEvent.request p).Right crc s) :
    (PasswordEvent.request p).Fits s := by
  intro hset hlast
  have hanswer := hright.1
  rw [h.answer_request hset, Access.answer, if_neg hset, h.passed p, hlast] at hanswer
  by_cases hin : s.InTicks p
  · refine iff_of_true hin ?_
    by_contra hrecent
    rw [if_pos hin, if_neg hrecent] at hanswer
    cases hanswer
  · refine iff_of_false hin fun hrecent => ?_
    rw [if_neg hin, if_pos hrecent] at hanswer
    cases hanswer

/-! ## A New Password -/

theorem Inv.answer_set (h : s.Inv crc) (p : Password) (oldPw newPw : List Byte) :
    s.device.answer crc (.set p oldPw newPw) =
    if oldPw.length ≤ maxPasswordLen ∧ newPw.length ≤ maxPasswordLen ∧ s.access.Presents p oldPw
    then (true, s.device.plcUpdatePasswordInfo crc p newPw) else (false, s.device) := by
  rw [PasswordState.answer, PasswordState.setUserPassword,
    PasswordState.plcCheckPasswordInfo_eq, h.valid p]
  by_cases hlong : maxPasswordLen < oldPw.length ∨ maxPasswordLen < newPw.length
  · rw [if_pos hlong, if_neg (by omega)]
  · rw [if_neg hlong]
    have hold : oldPw.length ≤ maxPasswordLen := by omega
    have hnew : newPw.length ≤ maxPasswordLen := by omega
    by_cases hnone : s.access.password p = none
    · rw [if_pos hnone, if_pos ⟨hold, hnew, .inl hnone⟩]
    · rw [if_neg hnone]
      by_cases hpw : s.access.password p = some oldPw
      · rw [if_pos hpw, if_pos ⟨hold, hnew, .inr hpw⟩]
        -- the note of the check is overwritten
        simp [PasswordState.plcUpdatePasswordInfo, PasswordState.setItem, PasswordState.tick]
      · rw [if_neg hpw, if_neg]
        rintro ⟨-, -, hpresents⟩
        exact hpresents.elim hnone hpw

/-- What has to be presented after a password was accepted. -/
theorem valid_update (hnew : newPw.length ≤ maxPasswordLen) (q : Password) :
    ((s.device.plcUpdatePasswordInfo crc p newPw).info.item q).valid =
      if q = p then
        if ((s.device.info.item p).password.putList 0 newPw).nativePU32 0 ≠ 0 then some newPw else none
      else (s.device.info.item q).valid := by
  by_cases hq : q = p
  · subst hq
    have hlen : (BitVec.ofNat 8 newPw.length).toNat = newPw.length := by
      exact Nat.mod_eq_of_lt (by simp only [maxPasswordLen] at hnew; omega)
    have hbytes := Buff.bytes_putList (s.device.info.item q).password 0 newPw
    have hnil : (s.device.info.item q).password.bytes 0 = [] := rfl
    rw [Nat.zero_add, hnil, List.nil_append] at hbytes
    simp only [PasswordState.plcUpdatePasswordInfo, PasswordState.item_setItem_self,
      PlcPassword.valid, hlen, hbytes, decide_eq_true_eq, if_true]
  · simp only [PasswordState.plcUpdatePasswordInfo, PasswordState.item_setItem_of_ne hq, if_neg hq]

/-- The device and the promise after a password was accepted. -/
theorem valid_update_iff (h : s.Inv crc) (hnew : newPw.length ≤ maxPasswordLen) :
    (∀ q, ((s.device.plcUpdatePasswordInfo crc p newPw).info.item q).valid =
      update s.access.password p (if newPw = [] then none else some newPw) q) ↔
        (newPw ≠ [] ↔ ((s.device.info.item p).password.putList 0 newPw).nativePU32 0 ≠ 0) := by
  have hp : ((s.device.plcUpdatePasswordInfo crc p newPw).info.item p).valid =
      (if newPw = [] then none else some newPw) ↔
        (newPw ≠ [] ↔ ((s.device.info.item p).password.putList 0 newPw).nativePU32 0 ≠ 0) := by
    rw [valid_update hnew]
    by_cases hnil : newPw = []
    · rw [if_pos hnil]
      split <;> simp_all
    · rw [if_neg hnil]
      split <;> simp_all
  rw [← hp]
  constructor
  · intro hall
    rw [hall p, update_self]
  · intro heq q
    by_cases hq : q = p
    · subst hq
      rw [heq, update_self]
    · rw [valid_update hnew, if_neg hq, h.valid q, update_of_ne hq]

theorem Inv.set_iff (h : s.Inv crc) :
    ((PasswordEvent.set p oldPw newPw).Right crc s ↔ (PasswordEvent.set p oldPw newPw).Fits s) ∧
      ((PasswordEvent.set p oldPw newPw).Fits s →
        (s.next crc (.set p oldPw newPw)).Inv crc) := by
  have hdevice := h.answer_set p oldPw newPw
  by_cases haccept : oldPw.length ≤ maxPasswordLen ∧ newPw.length ≤ maxPasswordLen ∧
      s.access.Presents p oldPw
  · rw [if_pos haccept] at hdevice
    have haccess : s.access.answer s.device.time (.set p oldPw newPw) =
        (true, ⟨update s.access.password p (if newPw = [] then none else some newPw),
          update s.access.last p none⟩) := by
      rw [Access.answer, if_pos haccept]
    have hfits : (PasswordEvent.set p oldPw newPw).Fits s ↔ _ :=
      ⟨fun hx => hx haccept.1 haccept.2.1 haccept.2.2, fun hx _ _ _ => hx⟩
    have hvalid := valid_update_iff (p := p) h haccept.2.1
    rw [hfits, PasswordEvent.Right, next, hdevice, haccess]
    refine ⟨(and_iff_right rfl).trans hvalid, fun hx => ⟨hvalid.mpr hx, fun q => ?_, h.head, ?_⟩⟩
    · by_cases hq : q = p
      · subst hq
        simp [PasswordState.plcUpdatePasswordInfo]
      · simp only [PasswordState.plcUpdatePasswordInfo, PasswordState.item_setItem_of_ne hq,
          h.passed q, update_of_ne hq]
    · exact ⟨h.head, rfl, fun q => ⟨rfl, rfl, fun _ _ => rfl⟩⟩
  · rw [if_neg haccept] at hdevice
    have hstep := right_of_answer hdevice (by rw [Access.answer, if_neg haccept]) h
    refine ⟨iff_of_true hstep.1 fun hold hnew hpresents => ?_, fun _ => hstep.2⟩
    exact absurd ⟨hold, hnew, hpresents⟩ haccept

/-! ## Reading the Flash Memory -/

/-- What is read is what is in use, or what was in use before a restart. -/
theorem Inv.read (h : s.Inv crc) (info : PlcPasswordInfo) (time : Nat)
    (last : Password → Option Nat) (hhead : info.head = 0xAA55)
    (hpassed : ∀ p, (info.item p).checkPass = (last p).isSome)
    (hitem : s.device.flash = none → ∀ p, (info.item p).isEnable = false) :
    (⟨(⟨info, s.device.flash, time⟩ : PasswordState).plcReadPasswordInfo crc,
      { s.access with last := last }⟩ : PasswordRun).Inv crc := by
  have hstored := h.stored
  unfold PasswordState.Stored at hstored
  cases hflash : s.device.flash with
  | none =>
    rw [hflash] at hstored
    have hnone : ∀ p, s.access.password p = none := by
      intro p
      rw [← h.valid p, PlcPassword.valid, hstored p]
      rfl
    refine ⟨fun p => ?_, hpassed, hhead, hitem hflash⟩
    rw [hnone p]
    exact if_neg (by simp [PasswordState.plcReadPasswordInfo, hitem hflash p])
  | some x =>
    obtain ⟨stored, c⟩ := x
    rw [hflash] at hstored
    obtain ⟨hstoredHead, hcrc, hsame⟩ := hstored
    have hread : (⟨info, some (stored, c), time⟩ : PasswordState).plcReadPasswordInfo crc =
        ⟨{ info with
            uploadForbid := stored.uploadForbid
            item := fun p => { info.item p with
              isEnable := (stored.item p).isEnable
              len := (stored.item p).len
              password := (info.item p).password.copy (stored.item p).password 0
                (stored.item p).len.toNat } }, some (stored, c), time⟩ := by
      rw [PasswordState.plcReadPasswordInfo]
      simp only [ne_eq, hstoredHead, hcrc, not_true_eq_false, if_false]
    rw [hread]
    refine ⟨fun p => ?_, hpassed, hhead, hstoredHead, hcrc, fun p => ⟨rfl, rfl, fun j hj => ?_⟩⟩
    · obtain ⟨henable, hlen, hbytes⟩ := hsame p
      rw [← h.valid p]
      simp only [PlcPassword.valid]
      rw [Buff.bytes_copy, henable, Buff.bytes_congr hbytes, hlen]
    · simp [Buff.copy, hj]

/-! ## Runs -/

theorem Inv.step {x : PasswordEvent} (h : s.Inv crc) :
    (x.Right crc s ↔ x.Fits s) ∧ (x.Fits s → (s.next crc x).Inv crc) := by
  cases x with
  | set p oldPw newPw => exact h.set_iff
  | check p pw => exact ⟨iff_of_true h.right_check.1 trivial, fun _ => h.right_check.2⟩
  | request p =>
    exact ⟨⟨h.fits_of_request, fun hx => (h.request_fits hx).1⟩, fun hx => (h.request_fits hx).2⟩
  | pass ms =>
    have hstep : (PasswordEvent.pass ms).Right crc s ∧ (s.next crc (.pass ms)).Inv crc :=
      right_of_answer (b := true)
        (t := ⟨{ s.device with time := s.device.time + ms }, s.access⟩) rfl rfl
        ⟨h.valid, h.passed, h.head, h.stored⟩
    exact ⟨iff_of_true hstep.1 trivial, fun _ => hstep.2⟩
  | start =>
    have henable : s.device.flash = none → ∀ p, (s.device.info.item p).isEnable = false := by
      intro hnone p
      have hstored := h.stored
      rw [PasswordState.Stored, hnone] at hstored
      exact hstored p
    have hstep := right_of_answer (x := .start) (b := true) (t := ⟨_, s.access⟩) rfl rfl
      (h.read s.device.info s.device.time s.access.last h.head h.passed henable)
    exact ⟨iff_of_true hstep.1 trivial, fun _ => hstep.2⟩
  | restart =>
    have hstep := right_of_answer (x := .restart) (b := true) (t := ⟨_, ⟨_, fun _ => none⟩⟩) rfl rfl
      (h.read (plcPasswordInit 0) 0 (fun _ => none) rfl (fun _ => rfl) fun _ _ => rfl)
    exact ⟨iff_of_true hstep.1 trivial, fun _ => hstep.2⟩

end PasswordRun

/-- In a run from the first start of the device on, its answers and passwords are as promised just
if its events fit. -/
theorem passwords_right_iff (crc : PlcPasswordInfo → BitVec 32) (xs : List PasswordEvent) :
    Each (PasswordRun.next crc) (fun s x => x.Right crc s) .init xs ↔
      Each (PasswordRun.next crc) (fun s x => x.Fits s) .init xs :=
  Each.iff_of_invariant (I := PasswordRun.Inv crc) (L := fun _ _ => True) PasswordRun.Inv.init
    (fun _ _ _ _ => trivial) (fun _ _ h _ => h.step.1) (fun _ _ h _ => h.step.2)

/-- Ten minutes after the start of the device a password is set and presented, and the next request
is refused. -/
theorem request_refused_after_check : ¬ ∀ (crc : PlcPasswordInfo → BitVec 32)
    (xs : List PasswordEvent),
    Each (PasswordRun.next crc) (fun s x => x.Right crc s) .init xs := by
  intro h
  have hright := h (fun _ => 0)
    [.pass 600000, .set .upload [] [1, 2, 3, 4], .check .upload [1, 2, 3, 4], .request .upload]
    [.pass 600000, .set .upload [] [1, 2, 3, 4], .check .upload [1, 2, 3, 4]] (.request .upload) []
    rfl
  have hanswer := hright.1
  revert hanswer
  decide

end Kalyke
