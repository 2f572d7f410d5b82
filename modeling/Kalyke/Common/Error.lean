-- SUMMARY: Error codes, the return values of the instruction functions, and which errors stop the PLC.
import Mathlib.Tactic.Common

/-!
# Errors

The codes of `plc_errormsg.h` that user programs can raise, the values an instruction function
returns, and the classification of the codes by `plc_refresh_error_msg`.
-/

namespace Kalyke

/-- The error codes that compiling or running a user program can raise. -/
inductive PlcErr where
  | userProgram | compiler | execOverTime | illegalInstrction | elementType | operands
  | overElementRang | overSbrStack | overSerialNum | divZero | stackDefine | noDefineSbrIntr
  | rtcInstruction | netConfig | modbusTbl | modbustcpTbl | noFreeMemory | mdtcpExceedmaxconn
deriving DecidableEq, Repr

/-- The numbers of the codes. -/
def PlcErr.code : PlcErr → Nat
  | userProgram => 40 | compiler => 60 | execOverTime => 61 | illegalInstrction => 62
  | elementType => 63 | operands => 64 | overElementRang => 65 | overSbrStack => 66
  | overSerialNum => 67 | divZero => 69 | stackDefine => 70 | noDefineSbrIntr => 72
  | rtcInstruction => 76 | netConfig => 77 | modbusTbl => 78 | modbustcpTbl => 79
  | noFreeMemory => 113 | mdtcpExceedmaxconn => 230

/-- The errors on which `plc_refresh_error_msg` sets `error_status_stop`. -/
def PlcErr.stops : PlcErr → Bool
  | compiler | illegalInstrction | elementType | execOverTime => true
  | _ => false

/-- What an instruction function returns: `pdPASS`, one of the `EXEC_FLAG` values, or an error. -/
inductive RetValue where
  | pass | fend | iret | sret | stop
  | err (e : PlcErr)
deriving DecidableEq, Repr

/-- The values on which `plc_run_user_program` returns at once. -/
def RetValue.leaves : RetValue → Bool
  | fend | iret | sret | stop => true
  | _ => false

/-- A failed access has not passed. -/
theorem error_ne_ok {e : PlcErr} : (Except.error e : Except PlcErr Unit) ≠ .ok () := by
  intro h
  cases h

end Kalyke
