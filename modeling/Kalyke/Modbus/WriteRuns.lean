-- SUMMARY: Runs of requests that are sent again, and of requests to force elements.
import Kalyke.Modbus.AllOrNothing
import Kalyke.Modbus.ForceLists
import Kalyke.Modbus.ListenOnly

/-!
# Runs of Requests that Write

A host that misses an answer sends its request again, perhaps by another port, and the slave carries
it out once more. Requests to force elements change the lists of them one after the other.
-/

namespace Kalyke

variable {ω : Type} {b : Board ω} {s t : Slave ω} {x : Message} {w : Writing}

namespace Slave

theorem receive_again {y : Message} (hreach : (s.take x).Reaches x.pack (.write w))
    (hask : (s.take x).Asks (.write w)) (hbytes : y.receiveBuff = x.receiveBuff)
    (ht : t.store = (s.receive b x).store) : (t.receive b y).store = t.store := by
  have hask' : (t.take y).Asks (.write w) := by
    rw [Asks, functionCode, take, hbytes]
    exact hask
  by_cases hreach' : (t.take y).Reaches y.pack (.write w)
  · have hplan : (t.take y).plannedWrites w = (s.take x).plannedWrites w := by
      cases w <;> simp only [plannedWrites, writeCoilRequest, take, hbytes] <;> rfl
    refine (performed_of_reaches hreach' hask').store.trans ?_
    rw [hplan]
    refine ElementWrite.run_eq_iff.mpr ?_
    have hstore := (performed_of_reaches (b := b) hreach hask).store
    exact ht ▸ hstore ▸ ElementWrite.settled_run _ _
  · exact (handle_ignored hreach' hask').1

/-- The lists of a slave with their lengths. -/
def lists (s : Slave ω) : ForceLists := fun kind =>
  ⟨BitVec.ofNat 16 (s.force kind).length, s.force kind⟩

/-- A frame is handed to the function that a request to force or to release is for. -/
structure Carries (s : Slave ω) (m : MsgPack) (r : ForceRequest) : Prop where
  len : 5 ≤ m.len
  crc : s.CrcOk m
  passed : ¬ s.Filtered m
  function : mbFunction? s.functionCode = some .ctrlFunc
  request : (ctrlOp? s.subCode).bind s.forceRequest? = some r

theorem HasLists.lists_eq {l : ForceLists} (h : s.HasLists l) : s.lists = l := by
  funext kind
  rw [lists, h.head, ← h.counted, BitVec.ofNat_toNat, BitVec.setWidth_eq]

theorem handle_lists {m : MsgPack} {r : ForceRequest} (hinv : s.lists.Inv) (h : s.Carries m r)
    (hrep : ¬ s.lists.Repeats r) : (s.handle b m).lists = s.lists.step r := by
  obtain ⟨op, hop, hrequest⟩ := Option.bind_eq_some_iff.mp h.request
  have hctrl : s.handle b m = s.fresh.ctrlCase b m (some op) := by
    rw [handle_passed (Nat.not_lt.mpr h.len) h.crc h.passed, h.function]
    exact congrArg (s.fresh.ctrlCase b m) hop
  have hlists : s.fresh.HasLists s.lists := ⟨fun _ => rfl, fun kind => (hinv kind).counted⟩
  rw [hctrl]
  exact (hlists.step b m hinv hrequest hrep).lists_eq

/-- Over requests that repeat no address in an empty list, the lists of the slave are what the
requests make of them one after the other, with each address once, if nothing else changes them. -/
theorem force_run {xs : List (Message × ForceRequest)} (hs : s.lists.Inv)
    (hrun : EventRun (fun t t' => t'.force = t.force) (fun t x => t.receive b x.1)
      (fun t x => (t.take x.1).Carries x.1.pack x.2 ∧ ¬ t.lists.Repeats x.2) s xs t) :
    t.lists.Inv ∧ t.lists = (xs.map Prod.snd).foldl ForceLists.step s.lists := by
  rw [List.foldl_map]
  refine hrun.simulates (I := fun t => t.lists.Inv) lists _ hs (fun t t' ht hidle => ?_)
    fun t x ht hx => ?_
  · have hlists : t'.lists = t.lists := funext fun _ => by rw [lists, hidle, lists]
    exact ⟨hlists ▸ ht, hlists⟩
  · have hlists := handle_lists (b := b) (s := t.take x.1) ht hx.1 hx.2
    exact ⟨hlists ▸ ForceLists.step_inv ht hx.2, hlists⟩

/-- `Y0` is forced on. -/
theorem y0_forced :
    let x := comMessage (withCrc [1, 0x6A, 5, 1, 0, 0, 1])
    ((idle []).receive idleBoard x).lists = ForceLists.init.step (.force .bit [(0, 1)]) := by
  intro x
  have hx : ((idle []).take x).Carries x.pack (.force .bit [(0, 1)]) :=
    ⟨by decide, by decide, by decide, by decide, by decide⟩
  exact (force_run (s := idle []) ForceLists.inv_init
    (.event (x, _) .start ⟨hx, fun h => h.2 (by decide)⟩)).2

end Slave

end Kalyke
