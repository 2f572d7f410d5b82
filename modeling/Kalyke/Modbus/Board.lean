-- SUMMARY: What the Modbus slave uses of the rest of the firmware: passwords, clock, flash, tasks.
import Kalyke.Modbus.Message

/-!
# The Rest of the Firmware

The vendor's functions call into other parts of the firmware. What these answer is a parameter of
the model, and so is what they do, which may change elements.
-/

namespace Kalyke

/-- `__PLC_PASSWORD_TYPE`. -/
inductive Password where
  | download | upload | monitor | timer
deriving DecidableEq, Repr

/-- `snvs_lp_srtc_datetime_t`. -/
structure Datetime where
  year : BitVec 16
  month : Byte
  day : Byte
  hour : Byte
  minute : Byte
  second : Byte
deriving DecidableEq, Repr

/-- `gtv_PlcExecErrorRecord`. -/
structure ExecErrorRecord where
  errorCnt : Byte
  errorMsg : Nat → BitVec 16
  errorAddr : Nat → BitVec 32

/-- `g_plc_netcfg`: the addresses of the two network ports, and whether they extend the inputs and
outputs. -/
structure Netcfg where
  wanIp : List Byte
  wanMask : List Byte
  wanGate : List Byte
  wanDns : List Byte
  wanIoExp : Byte
  lanIp : List Byte
  lanMask : List Byte
  lanGate : List Byte
  lanIoExp : Byte
  lengths : wanIp.length = 4 ∧ wanMask.length = 4 ∧ wanGate.length = 4 ∧ wanDns.length = 4 ∧
    lanIp.length = 4 ∧ lanMask.length = 4 ∧ lanGate.length = 4

/-- `gtv_DeviceConfigTable.mtv_DevInfo`, as far as it is read. -/
structure DevInfo where
  deviceTypeId : BitVec 32
  deviceId : List Byte
  length : deviceId.length = 12

/-- What the slave has other parts of the firmware do. -/
inductive Act where
  | closeLedRunErr | plcReboot
  | suspendTaskWhenDownloadUcode | resumeTaskAfterDownloadUcode
  /-- Erase the part of the flash memory that holds a file. -/
  | eraseFile (f : DlFile)
  /-- Write bytes to the part of the flash memory that holds a file. -/
  | writeFile (f : DlFile) (data : List Byte)
  /-- Write a new firmware and mark it as the one to start. -/
  | writeImage (data : List Byte)
  /-- Let a pointer of `gtv_UserFilePtrSt` point to the default file, to the flash memory, or to a
  buffer. -/
  | useDefaultFile (f : DlFile)
  | useFlashFile (f : DlFile)
  | useBuffer (f : DlFile) (data : Buff)
  | plcPasswordErase | plcElementValueInit | plcEuEdInit | plcHspInit | plcSmSdInit
  | plcCleanUserRunErrorFlag | plsdEraseAll
  /-- `plc_refresh_error_msg(ERR_COMPILER)`. -/
  | refreshErrorMsgCompiler
  | setUploadForbid (flag : Bool)
  | updatePassword (p : Password) (pwd : List Byte)
  /-- Write the device's numbers to the flash memory. -/
  | writeDeviceInfo (data : List Byte)
  | blinkNetLed
  /-- Set `gTouChuan`. -/
  | touChuan (x : Byte)
  | saveTouChuan (x : Byte)

/-- The rest of the firmware. -/
structure Board (ω : Type) where
  act : Act → Store × ω → Store × ω
  /-- `plc_get_password_check_result`, which renews the time of the check. -/
  passwordCheckResult : Password → ω → Bool × ω
  /-- `plc_check_password_info`. -/
  checkPasswordInfo : Password → List Byte → ω → Bool × ω
  uploadForbidFlag : ω → Bool
  /-- `SNVS_HP_RTC_GetDatetime`. -/
  getDatetime : ω → Datetime
  /-- `SNVS_LP_SRTC_SetDatetime`, with the synchronisation after it. -/
  setDatetime : Datetime → ω → Option ω
  /-- `guv_PlcSysBlkAdSetting.bit.forbidden_format`. -/
  forbiddenFormat : ω → Bool
  devInfo : ω → DevInfo
  netcfg : ω → Netcfg
  execErrorRecord : ω → ExecErrorRecord
  /-- The first `SD` element of a serial port's settings, `msv_SdFlagStartELement`. -/
  uartSdStart : ω → Nat → Nat
  /-- `gKalykeSecondTickCurrent`. -/
  secondTick : ω → BitVec 32
  /-- What a pointer of `gtv_UserFilePtrSt` points to. -/
  userFile : DlFile → ω → Buff
  /-- The part of the flash memory that holds a file. -/
  flashFile : DlFile → ω → Buff
  /-- `plc_compiler_ucode`. -/
  compilerUcode : Buff → Store × ω → Bool × Store × ω
  /-- The bytes of memory just allocated. -/
  malloc : ω → Buff
  /-- `xPortGetFreeHeapSize`. -/
  freeHeapSize : ω → Nat

/-- A board on which every password is right, every time is taken and nothing happens. -/
def idleBoard : Board Unit where
  act _ x := x
  passwordCheckResult _ w := (true, w)
  checkPasswordInfo _ _ w := (true, w)
  uploadForbidFlag _ := false
  getDatetime _ := ⟨2020, 1, 1, 0, 0, 0⟩
  setDatetime _ w := some w
  forbiddenFormat _ := false
  devInfo _ := ⟨0, List.replicate 12 0, rfl⟩
  netcfg _ :=
    let addr : List Byte := [0, 0, 0, 0]
    ⟨addr, addr, addr, addr, 0, addr, addr, addr, 0, by decide⟩
  execErrorRecord _ := ⟨0, fun _ => 0, fun _ => 0⟩
  uartSdStart _ _ := 0
  secondTick _ := 0
  userFile _ _ := fun _ => 0
  flashFile _ _ := fun _ => 0
  compilerUcode _ x := (true, x)
  malloc _ := fun _ => 0
  freeHeapSize _ := 0

variable {ω : Type}

namespace Slave

/-- Have another part of the firmware do something. -/
def act (b : Board ω) (s : Slave ω) (a : Act) : Slave ω :=
  let (store, world) := b.act a (s.store, s.world)
  { s with store := store, world := world }

/-- Have several things done, one after the other. -/
def acts (b : Board ω) (s : Slave ω) (as : List Act) : Slave ω := as.foldl (act b) s

def passwordChecked (b : Board ω) (s : Slave ω) (p : Password) : Bool × Slave ω :=
  let (ok, world) := b.passwordCheckResult p s.world
  (ok, { s with world := world })

/-! ## Starting and Stopping -/

def mbSlaveCtrlRunCmd (b : Board ω) (s : Slave ω) : Slave ω :=
  { s with
    cmdRun := true, cmdReboot := false
    store := { s.store with cmdStop := false, errorStatusStop := false } }.act b .closeLedRunErr

def mbSlaveCtrlStopCmd (s : Slave ω) : Slave ω :=
  { s with
    powerOnAutoRun := false, cmdRun := false, store := { s.store with cmdStop := true } }

end Slave

end Kalyke
