-- SUMMARY: Process data that come back from a slave as they were sent: for which mappings and elements.
import Kalyke.EtherCat.Pdo
import Mathlib.Data.List.Pairwise

/-!
# Process Data Sent Back

A slave that sends its outputs back is to leave the mapped elements as they are. The places that the
count of bits gives have to be those that the entries are filled in at: bytes for all that is longer
than a bit, and the first 256 bits for single bits. And what is written without regard to the image
has to be there already, or to be written again.
-/

namespace Kalyke

open List

/-! ## The law -/

/-- The slave has sent its outputs back. -/
def SoemSlave.echoed (slave : SoemSlave) : SoemSlave := { slave with inputs := slave.outputs }

/-- The elements after the outputs were filled in, sent back and taken as inputs. -/
def looped (slaves : List SoemSlave) (s : Store) : Store :=
  kalykeSoemProcessTxPDOData ((kalykeSoemProcessRxPDOData s slaves).map SoemSlave.echoed) s

/-- The bits of some entries. -/
def bitSum (es : List SoemPdo) : Nat := (es.map SoemPdo.len).sum

/-- The `curOffsetBit` behind some entries. -/
def curOffsetBit (off : Nat) (es : List SoemPdo) : Nat :=
  es.foldl (fun off e => (off + e.len) % 65536) off

/-- The mappings of the slaves: the same in both directions, with entries for elements that there
are, none of which is mapped twice. -/
structure MappingsLegal (slaves : List SoemSlave) : Prop where
  same : ∀ slave ∈ slaves, slave.txPDO = slave.rxPDO
  legal : ∀ slave ∈ slaves, ∀ e ∈ slave.rxPDO, e.Legal
  apart : (slaves.flatMap SoemSlave.rxPDO).Pairwise fun e e' => ∀ c ∈ e.cells, c ∉ e'.cells

/-- Each entry has its place behind all bits of the entries before it. -/
def PlacesRight (slaves : List SoemSlave) : Prop :=
  ∀ slave ∈ slaves, ∀ before e after, slave.rxPDO = before ++ e :: after →
    e.startBit (curOffsetBit 0 before) = bitSum before

/-- The mapped bits are as they were, and nothing else has changed. -/
structure LoopRight (slaves : List SoemSlave) (s : Store) : Prop where
  mapped : ∀ slave ∈ slaves, ∀ e ∈ slave.rxPDO, ∀ k < e.len,
    e.value (looped slaves s) k = e.value s k
  others : ChangesOnly (fun c => ∃ slave ∈ slaves, ∃ e ∈ slave.rxPDO, c ∈ e.cells) s
    (looped slaves s)

/-- Single bits come within the first 256, all else begins with a byte, below bit 65536. -/
def PlacesMeet (slaves : List SoemSlave) : Prop :=
  ∀ slave ∈ slaves, ∀ before e after, slave.rxPDO = before ++ e :: after →
    if e.len = 1 then bitSum before < 256 else 8 ∣ bitSum before ∧ bitSum before < 65536

/-- A bit that is written without regard to the image is written again, or has the value. -/
def OctetsHeld (slaves : List SoemSlave) (s : Store) : Prop :=
  ∀ l off e r, slaves.flatMap (fun slave => places 0 slave.rxPDO) = l ++ (off, e) :: r →
    ∀ b i v, e.octetBit off b i = some v → (∀ p ∈ r, ¬ p.2.HitsBit b i) → s.bit b i = v

/-! ## Places -/

section

variable {off : Nat} {es l r : List SoemPdo} {e : SoemPdo} {p : Nat × SoemPdo}

theorem curOffsetBit_eq (h : off < 65536) : curOffsetBit off es = (off + bitSum es) % 65536 := by
  induction es generalizing off with
  | nil => exact (Nat.mod_eq_of_lt h).symm
  | cons e es ih =>
    have hsum : bitSum (e :: es) = e.len + bitSum es := by simp [bitSum]
    rw [curOffsetBit, foldl_cons, ← curOffsetBit, ih (Nat.mod_lt _ (by decide)), hsum,
      Nat.mod_add_mod, Nat.add_assoc]

theorem places_append :
    places off (l ++ r) = places off l ++ places (curOffsetBit off l) r := by
  induction l generalizing off with
  | nil => rfl
  | cons e l ih =>
    rw [cons_append, places, ih]
    rfl

theorem mem_places (h : p ∈ places off es) :
    ∃ l r, es = l ++ p.2 :: r ∧ p.1 = curOffsetBit off l := by
  induction es generalizing off with
  | nil => cases h
  | cons e es ih =>
    rcases mem_cons.mp h with rfl | h
    · exact ⟨[], es, rfl, rfl⟩
    · obtain ⟨l, r, rfl, hp⟩ := ih h
      exact ⟨e :: l, r, rfl, hp⟩

theorem startBit_eq_iff (n : Nat) :
    e.startBit (n % 65536) = n ↔ if e.len = 1 then n < 256 else 8 ∣ n ∧ n < 65536 := by
  rw [SoemPdo.startBit]
  split <;> omega

theorem placesRight_iff {slaves : List SoemSlave} : PlacesRight slaves ↔ PlacesMeet slaves := by
  refine forall₂_congr fun slave _ => forall₂_congr fun before e => forall₂_congr fun after _ => ?_
  rw [curOffsetBit_eq (by decide), Nat.zero_add, startBit_eq_iff]

end

/-! ## The images -/

section

variable {slave : SoemSlave} {before after : List SoemPdo} {e : SoemPdo} {s : Store} {k : Nat}

/-- The places of a mapping, one behind the other. -/
def InOrder (es : List SoemPdo) : Prop :=
  ∀ before e after, es = before ++ e :: after →
    e.startBit (curOffsetBit 0 before) = bitSum before

theorem bit_rxLoop {es : List SoemPdo} {img : Image} (hlegal : ∀ e ∈ es, e.Legal)
    (horder : InOrder es) (hes : es = before ++ e :: after) (hk : k < e.len) :
    (rxLoop s es img).bit (bitSum before + k) = e.value s k := by
  have hview : (rxLoop s es img).bit =
      Patch.run ((places 0 es).map fun p => p.2.rxPatch s p.1) img.bit := by
    refine Patch.view_foldl Image.bit (fun p : Nat × SoemPdo => p.2.rxPatch s p.1)
      (fun p hp img => ?_) img
    obtain ⟨l, r, hes', -⟩ := mem_places hp
    exact SoemPdo.bit_rxEntry (hlegal p.2 (by rw [hes']; simp))
  have hstart := horder before e after hes
  have hplaces : places 0 es = places 0 before ++ (curOffsetBit 0 before, e) ::
      places (curOffsetBit 0 (before ++ [e])) after := by
    rw [hes, places_append, places]
    simp [curOffsetBit]
  rw [hview, hplaces]
  refine Patch.run_last ?_ fun p hp => ?_
  · change e.rxPatch s (curOffsetBit 0 before) _ = _
    rw [SoemPdo.rxPatch, hstart, if_pos (by omega), Nat.add_sub_cancel_left]
  · -- What comes later has its place behind this entry.
    obtain ⟨l, r, hafter, hoff⟩ := mem_places hp
    have hlater : p.2.startBit p.1 = bitSum (before ++ e :: l) := by
      rw [hoff]
      have hsplit := horder (before ++ e :: l) p.2 r (by rw [hes, hafter]; simp)
      rw [← hsplit]
      simp [curOffsetBit]
    have hsum : bitSum (before ++ e :: l) = bitSum before + (e.len + bitSum l) := by
      simp [bitSum]
    rw [SoemPdo.rxPatch, if_neg (by omega)]

end

/-! ## The elements -/

section

variable {slaves : List SoemSlave} {s : Store} {c : Cell} {e : SoemPdo}

/-- The entries of all slaves, with their places. -/
def allPlaces (slaves : List SoemSlave) : List (SoemSlave × Nat × SoemPdo) :=
  slaves.flatMap fun slave => (places 0 slave.rxPDO).map fun p => (slave, p)

/-- The image of a slave once it has sent its outputs back. -/
def SoemSlave.image (slave : SoemSlave) (s : Store) : Image := rxLoop s slave.rxPDO slave.outputs

/-- What is taken from the image of a slave. -/
def loopPatch (s : Store) (x : SoemSlave × Nat × SoemPdo) : Patch Cell (BitVec 32) :=
  x.2.2.txPatch (x.1.image s) x.2.1

theorem read_looped (hsame : ∀ slave ∈ slaves, slave.txPDO = slave.rxPDO) :
    (fun c => c.read (looped slaves s)) =
      Patch.run ((allPlaces slaves).map (loopPatch s)) fun c => c.read s := by
  have hfold : looped slaves s = (allPlaces slaves).foldl
      (fun t x => txEntry (x.1.image s) t x.2.1 x.2.2) s := by
    rw [looped, kalykeSoemProcessTxPDOData, kalykeSoemProcessRxPDOData, allPlaces,
      foldl_flatMap, foldl_map, foldl_map]
    refine foldl_ext _ _ _ fun t slave hslave => ?_
    rw [foldl_map]
    simp only [hsame slave hslave]
    rfl
  rw [hfold]
  exact Patch.view_foldl (fun t c => Cell.read t c) (loopPatch s)
    (fun x _ t => SoemPdo.read_txEntry) s

theorem mem_allPlaces {x : SoemSlave × Nat × SoemPdo} (h : x ∈ allPlaces slaves) :
    x.1 ∈ slaves ∧ ∃ l r, x.1.rxPDO = l ++ x.2.2 :: r ∧ x.2.1 = curOffsetBit 0 l := by
  obtain ⟨slave, hslave, hx⟩ := mem_flatMap.mp h
  obtain ⟨p, hp, rfl⟩ := mem_map.mp hx
  exact ⟨hslave, mem_places hp⟩

theorem map_snd_allPlaces :
    (allPlaces slaves).map Prod.snd = slaves.flatMap fun slave => places 0 slave.rxPDO := by
  simp [allPlaces, map_flatMap]

theorem read_looped_cases (h : MappingsLegal slaves) (hplaces : PlacesRight slaves)
    (hheld : OctetsHeld slaves s) (c : Cell) :
    c.read (looped slaves s) = c.read s ∨
    ∃ slave ∈ slaves, ∃ e ∈ slave.rxPDO, ∃ w j, e.eType.soemWord = some w ∧
      c = .word w (e.eAddr + j) ∧ c ∈ e.cells ∧ ∀ m < 16, 16 * j + m < e.len →
        (c.read (looped slaves s)).getLsbD m = e.value s (16 * j + m) := by
  have hread : c.read (looped slaves s) = _ := congrFun (read_looped h.same) c
  rcases Patch.none_or_last (loopPatch s) (allPlaces slaves) c with
    hnone | ⟨l, ⟨slave, off, e⟩, r, y, hall, hy, hlast⟩
  · rw [hread, Patch.run_of_none (forall_mem_map.mpr hnone)]
    exact .inl rfl
  · rw [hread, hall, Patch.run_last hy hlast]
    have hx : (slave, off, e) ∈ allPlaces slaves := by rw [hall]; simp
    obtain ⟨hslave, before, after, hes, hoff⟩ := mem_allPlaces hx
    have he : e ∈ slave.rxPDO := by rw [hes]; simp
    have hstart : e.startBit off = bitSum before :=
      (congrArg e.startBit hoff).trans (hplaces slave hslave before e after hes)
    have hbit (k : Nat) (hk : k < e.len) :
        (slave.image s).bit (e.startBit off + k) = e.value s k := by
      rw [hstart]
      exact bit_rxLoop (h.legal slave hslave) (hplaces slave hslave) hes hk
    rcases SoemPdo.txPatch_cases (h.legal slave hslave e he) hy with
      ⟨w, j, hw, hc, hmem, hword⟩ | ⟨b, hb, hlen, rfl, rfl⟩ | ⟨b, i, v, rfl, hv, rfl⟩
    · refine .inr ⟨slave, hslave, e, he, w, j, hw, hc, hmem, fun m hm hlt => ?_⟩
      rw [hword m hm hlt, hbit _ hlt]
    · have hzero := hbit 0 (by omega)
      rw [Nat.add_zero] at hzero
      rw [hzero]
      refine .inl ?_
      simp only [SoemPdo.value, SoemPdo.soemWord_of_bits hb, hb]
      rfl
    · refine .inl ?_
      have hflat : slaves.flatMap (fun slave => places 0 slave.rxPDO) =
          l.map Prod.snd ++ (off, e) :: r.map Prod.snd := by
        rw [← map_snd_allPlaces, hall, map_append, map_cons]
      rw [← hheld _ off e _ hflat b i v hv fun p hp hhits => ?_]
      · rfl
      · obtain ⟨z, hz, rfl⟩ := mem_map.mp hp
        exact SoemPdo.txPatch_of_hits hhits (hlast z hz)

theorem rest_txEntry {img : Image} {off : Nat} : (txEntry img s off e).rest = s.rest := by
  rw [txEntry]
  split
  · rw [txWord]
    split
    · rw [rest_setWord, rest_setWord]
    split
    · rw [rest_setWord]
    split
    · rw [rest_setWord]
    · rfl
  · rw [txBits]
    split
    · rw [rest_setBit]
    split
    · rfl
    split
    · rfl
    · rfl
  · rfl

theorem rest_looped : (looped slaves s).rest = s.rest := by
  refine foldlRecOn _ txLoop (motive := fun t : Store => t.rest = s.rest) rfl
    fun t ht slave _ => ?_
  refine foldlRecOn _ _ (motive := fun t : Store => t.rest = s.rest) ht fun t ht p _ => ?_
  exact rest_txEntry.trans ht

/-- The bits of an entry that are elements of their own. -/
theorem SoemPdo.bit_mem_cells {b : BitElement} {i : Nat} (h : .bit b i ∈ e.cells) :
    ∃ k < e.len, i = e.eAddr + k ∧ ∀ t, e.value t k = t.bit b i := by
  rw [cells] at h
  split at h
  · obtain ⟨k, -, hk⟩ := mem_map.mp h
    cases hk
  · rename_i b' hw hb
    obtain ⟨k, hk, heq⟩ := mem_map.mp h
    cases heq
    exact ⟨k, mem_range.mp hk, rfl, fun t => by simp only [value, hw, hb]⟩
  · cases h

theorem value_looped (h : MappingsLegal slaves) (hplaces : PlacesRight slaves)
    (hheld : OctetsHeld slaves s) {slave : SoemSlave} (hslave : slave ∈ slaves)
    (he : e ∈ slave.rxPDO) {k : Nat} (hk : k < e.len) :
    e.value (looped slaves s) k = e.value s k := by
  rcases (h.legal slave hslave e he).cases with ⟨w, hw, -, -⟩ | ⟨b, hw, hb, -, -, -⟩
  · have hvalue (t : Store) :
        e.value t k = ((Cell.word w (e.eAddr + k / 16)).read t).getLsbD (k % 16) := by
      have hlt : k % 16 < 32 := by omega
      simp only [SoemPdo.value, hw, Cell.read, BitVec.getLsbD_setWidth, hlt, decide_true,
        Bool.true_and]
    have hcell : Cell.word w (e.eAddr + k / 16) ∈ e.cells := by
      simp only [SoemPdo.cells, hw]
      exact mem_map.mpr ⟨k / 16, mem_range.mpr (by omega), rfl⟩
    rcases read_looped_cases h hplaces hheld (.word w (e.eAddr + k / 16)) with
      heq | ⟨slave', hslave', e', he', w', j, -, hc, hmem, hword⟩
    · rw [hvalue, hvalue, heq]
    · -- No other entry has the word.
      obtain rfl : e' = e := by
        by_contra hne
        have hsymm : Std.Symm fun e e' : SoemPdo => ∀ c ∈ e.cells, c ∉ e'.cells :=
          ⟨fun e e' hd c hc hc' => hd c hc' hc⟩
        exact h.apart.forall (mem_flatMap.mpr ⟨slave', hslave', he'⟩)
          (mem_flatMap.mpr ⟨slave, hslave, he⟩) hne _ hmem hcell
      have hj : k / 16 = j := by
        injection hc with _ hsum
        exact Nat.add_left_cancel hsum
      have hsum : 16 * j + k % 16 = k := by omega
      rw [hvalue, hword (k % 16) (by omega) (by omega), hsum]
  · have hvalue (t : Store) : e.value t k = t.bit b (e.eAddr + k) := by
      simp only [SoemPdo.value, hw, hb]
    rcases read_looped_cases h hplaces hheld (.bit b (e.eAddr + k)) with
      heq | ⟨slave', -, e', -, w', j, -, hc, -⟩
    · rw [hvalue, hvalue]
      exact ofNat_toNat_inj heq
    · cases hc

/-- Process data that are sent back leave the elements as they are just if the places meet the
lengths and the octets that are not taken from the image are held. -/
theorem loopRight_iff (h : MappingsLegal slaves) :
    PlacesRight slaves ∧ LoopRight slaves s ↔ PlacesMeet slaves ∧ OctetsHeld slaves s := by
  rw [placesRight_iff]
  refine and_congr_right fun hmeet => ⟨fun hright => ?_, fun hheld => ⟨?_, ?_, ?_⟩⟩
  · intro l off e r hflat b i v hv hlater
    rw [← map_snd_allPlaces] at hflat
    obtain ⟨l', tail, hall, -, htail⟩ := map_eq_append_iff.mp hflat
    obtain ⟨x, r', rfl, hx, rfl⟩ := map_eq_cons_iff.mp htail
    have hread : (Cell.bit b i).read (looped slaves s) = BitVec.ofNat 32 v.toNat := by
      have hpatch : loopPatch s x (.bit b i) = some (BitVec.ofNat 32 v.toNat) := by
        rw [loopPatch, hx]
        exact SoemPdo.txPatch_octet hv
      refine (congrFun (read_looped h.same) (.bit b i)).trans ?_
      rw [hall]
      refine Patch.run_last hpatch fun z hz => ?_
      have hz' : z ∈ allPlaces slaves := by rw [hall]; simp [hz]
      obtain ⟨hslave, l'', r'', hes, -⟩ := mem_allPlaces hz'
      exact SoemPdo.txPatch_of_not_hits
        (h.legal z.1 hslave z.2.2 (by rw [hes]; simp)) (hlater z.2 (mem_map_of_mem hz))
    have hsame : (looped slaves s).bit b i = s.bit b i := by
      by_cases hmapped : ∃ slave ∈ slaves, ∃ e ∈ slave.rxPDO, Cell.bit b i ∈ e.cells
      · obtain ⟨slave, hslave, e', he', hmem⟩ := hmapped
        obtain ⟨k, hk, -, hvalue⟩ := SoemPdo.bit_mem_cells hmem
        rw [← hvalue, ← hvalue, hright.mapped slave hslave e' he' k hk]
      · exact ofNat_toNat_inj (hright.others.cells _ hmapped)
    rw [← hsame]
    exact ofNat_toNat_inj hread
  · exact fun slave hslave e he k hk =>
      value_looped h (placesRight_iff.mpr hmeet) hheld hslave he hk
  · intro c hc
    rcases read_looped_cases h (placesRight_iff.mpr hmeet) hheld c with
      heq | ⟨slave, hslave, e, he, -, -, -, -, hmem, -⟩
    · exact heq
    · exact absurd ⟨slave, hslave, e, he, hmem⟩ hc
  · exact rest_looped

end

def SoemSlave.ofEntry (e : SoemPdo) : SoemSlave := ⟨[e], [e], fun _ => 0, fun _ => 0⟩

theorem mappingsLegal_ofEntry {e : SoemPdo} (h : e.Legal) :
    MappingsLegal [SoemSlave.ofEntry e] where
  same := forall_mem_singleton.mpr rfl
  legal := forall_mem_singleton.mpr (forall_mem_singleton.mpr h)
  apart := pairwise_singleton _ e

/-- One word is sent back as it was. -/
theorem loopRight_iff_d0 : LoopRight [SoemSlave.ofEntry ⟨16, .d, 0⟩] Store.off := by
  have hlegal : (⟨16, .d, 0⟩ : SoemPdo).Legal := ⟨.inr (.inl rfl), by decide⟩
  refine ((loopRight_iff (mappingsLegal_ofEntry hlegal)).mpr ⟨?_, ?_⟩).2
  · refine forall_mem_singleton.mpr fun before e after hes => ?_
    rcases append_eq_singleton_iff.mp hes.symm with ⟨rfl, hcons⟩ | ⟨-, hcons⟩
    · cases hcons
      exact ⟨⟨0, rfl⟩, by decide⟩
    · cases hcons
  · intro l off e r hplaces b i v hv hlater
    have hmem : (off, e) ∈ [((0 : Nat), (⟨16, .d, 0⟩ : SoemPdo))] := by
      rw [show [((0 : Nat), (⟨16, .d, 0⟩ : SoemPdo))] = _ from hplaces]
      exact mem_append_right l mem_cons_self
    cases mem_singleton.mp hmem
    cases hv

/-- Eight bits that are on come back as the number of their byte. -/
theorem octet_not_returned : ¬ ∀ (slaves : List SoemSlave) (s : Store), MappingsLegal slaves →
    PlacesRight slaves ∧ LoopRight slaves s := by
  intro h
  have hlegal : (⟨8, .m, 0⟩ : SoemPdo).Legal := ⟨.inr (.inl rfl), ⟨0, rfl⟩, by decide⟩
  have hright := (h [SoemSlave.ofEntry ⟨8, .m, 0⟩] (Store.off.setBit (.elem .M) 0 true)
    (mappingsLegal_ofEntry hlegal)).2.mapped _ (mem_singleton_self _) ⟨8, .m, 0⟩
    (mem_singleton_self _) 0 (by decide)
  revert hright
  decide

end Kalyke
