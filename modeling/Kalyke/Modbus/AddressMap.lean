-- SUMMARY: What the Modbus addresses denote, and which elements have more than one address.
import Kalyke.Modbus.MapTable

/-!
# The Address Map

The windows of the table are longer than the sections they stand for, and the lookup accepts what
lies past the end of a section. So an element of a class with two sections can have an address in
each: `MbElement.Twice` lists these elements, and every other element has one address only.
-/

namespace Kalyke

open List

/-- What a Modbus address denotes. The two words of a counter of 32 bits have an address each. -/
inductive Denoted where
  | element (t : MbElement) (n : Nat)
  | half (counter : Nat) (second : Bool)
deriving DecidableEq, Repr

/-- The element behind a class and a number: from 200 on, two numbers share a counter. -/
def MbElement.denoted (t : MbElement) (n : Nat) : Denoted :=
  if t = .wordC ∧ c16Rang ≤ n then .half ((n - c16Rang) / 2 + c16Rang) ((n - c16Rang) % 2 = 1)
  else .element t n

/-- What an address denotes, if it is accepted. -/
def denotes (kind : AddrKind) (a : Nat) : Option Denoted :=
  (mbSlaveConvertElementInfo kind a).map fun x => x.1.denoted x.2

/-- The elements of the firmware. -/
def Denoted.Present : Denoted → Prop
  | element t n => (∃ e, t.bit? = some e ∧ n < e.rang) ∨ ∃ w, t.word? = some w ∧ n < w.rang
  | half c _ => c16Rang ≤ c ∧ c < cRang

/-- The kind of the addresses that can denote an element. -/
def Denoted.kind : Denoted → AddrKind
  | element t _ => t.kind
  | half _ _ => .word

/-- The numbers of a class that lie in two windows. -/
def MbElement.Twice : MbElement → Nat → Prop
  | bitX, n => 256 ≤ n ∧ n < 800
  | bitM, n => 2048 ≤ n ∧ n < 2400
  | bitSM, n => 256 ≤ n ∧ n < 1600
  | bitS, n => 1024 ≤ n ∧ n < 2000
  | bitT, n => 256 ≤ n ∧ n < 1200
  | bitC, n => 256 ≤ n ∧ n < 800
  | wordSD, n => 256 ≤ n ∧ n < 500
  | wordZ, n => 16 ≤ n ∧ n < 500
  | wordT, n => 256 ≤ n ∧ n < 500
  | wordC, n => 256 ≤ n ∧ n < 312
  | _, _ => False

/-- The elements that two addresses denote. -/
def Denoted.Twice : Denoted → Prop
  | element t n => t.Twice n
  | half c _ => 228 ≤ c ∧ c < 256

/-! ## Addresses of an Element -/

theorem MbElement.denoted_inj {t t' : MbElement} {n n' : Nat}
    (h : t.denoted n = t'.denoted n') : t = t' ∧ n = n' := by
  unfold denoted at h
  split_ifs at h with h1 h2
  · simp only [Denoted.half.injEq, decide_eq_decide] at h
    exact ⟨h1.1.trans h2.1.symm, by omega⟩
  · simpa using h

theorem MbElement.twice_denoted (t : MbElement) (n : Nat) : (t.denoted n).Twice ↔ t.Twice n := by
  unfold denoted
  split_ifs with h
  · obtain ⟨rfl, hn⟩ := h
    simp only [Denoted.Twice, Twice, c16Rang] at hn ⊢
    omega
  · exact Iff.rfl

theorem denotes_eq_some_iff {kind : AddrKind} {a : Nat} {x : Denoted} :
    denotes kind a = some x ↔
      ∃ t n, mbSlaveConvertElementInfo kind a = some (t, n) ∧ t.denoted n = x := by
  simp [denotes]

/-- Where an element's number lies in a window, the window has an address for it. -/
theorem AddrWindow.maps_address {w : AddrWindow} {n : Nat} (hf : w.first ≤ n)
    (hn : n - w.first ≤ w.stop - w.start) (hw : w.start ≤ w.stop) :
    w.Maps (w.start + (n - w.first)) n := by
  unfold Maps
  omega

theorem MbElement.windows_nonempty (t : MbElement) : ∀ w ∈ t.windows, w.start ≤ w.stop := by
  cases t <;> decide

/-- An address is its element's only one unless two windows hold the element. -/
theorem sole_iff {t : MbElement} {a n : Nat} (ha : ∃ w ∈ t.windows, w.Maps a n) :
    (∀ b, (∃ w ∈ t.windows, w.Maps b n) → b = a) ↔ ¬ t.Twice n := by
  constructor
  · intro h htwice
    have haddr : ∀ w ∈ t.windows, w.first ≤ n → n - w.first ≤ w.stop - w.start →
        w.start + (n - w.first) = a := by
      intro w hw hf hn
      exact h _ ⟨w, hw, w.maps_address hf hn (t.windows_nonempty w hw)⟩
    cases t <;> simp only [MbElement.Twice] at htwice <;>
      simp only [MbElement.windows, forall_mem_cons] at haddr <;> omega
  · intro hsole b hb
    cases t <;> simp only [MbElement.Twice] at hsole <;>
      simp only [MbElement.windows, mem_cons, not_mem_nil, or_false, exists_eq_or_imp,
        exists_eq_left, AddrWindow.Maps] at ha hb <;> omega

theorem exists_address {t : MbElement} {n : Nat} (h : (t.denoted n).Present) :
    ∃ a, ∃ w ∈ t.windows, w.Maps a n := by
  suffices hw : ∃ w ∈ t.windows, w.first ≤ n ∧ n - w.first ≤ w.stop - w.start by
    obtain ⟨w, hmem, hf, hn⟩ := hw
    exact ⟨_, w, hmem, w.maps_address hf hn (t.windows_nonempty w hmem)⟩
  unfold MbElement.denoted at h
  split_ifs at h with hc
  · obtain ⟨rfl, hn⟩ := hc
    simp only [Denoted.Present, cRang] at h hn
    simp only [MbElement.windows, mem_cons, not_mem_nil, or_false, exists_eq_or_imp,
      exists_eq_left]
    omega
  · cases t <;> simp [Denoted.Present, MbElement.bit?, MbElement.word?, BitElement.rang,
      WordElement.rang, cRang] at h <;>
    simp only [MbElement.windows, mem_cons, not_mem_nil, or_false, exists_eq_or_imp,
      exists_eq_left] <;> omega

theorem denotes_denoted_iff {kind : AddrKind} {a n : Nat} {t : MbElement} :
    denotes kind a = some (t.denoted n) ↔ t.kind = kind ∧ ∃ w ∈ t.windows, w.Maps a n := by
  rw [denotes_eq_some_iff, ← convert_eq_some_iff]
  constructor
  · rintro ⟨t', n', h, hx⟩
    obtain ⟨rfl, rfl⟩ := MbElement.denoted_inj hx
    exact h
  · exact fun h => ⟨t, n, h, rfl⟩

/-- Every existing element has a class and a number. -/
theorem Denoted.exists_denoted {x : Denoted} (h : x.Present) :
    ∃ (t : MbElement) (n : Nat), x = t.denoted n ∧ x.kind = t.kind := by
  cases x with
  | element t n =>
    refine ⟨t, n, ?_, rfl⟩
    unfold MbElement.denoted
    rw [if_neg]
    rintro ⟨rfl, hn⟩
    simp [Present, MbElement.bit?, MbElement.word?, WordElement.rang] at h
    simp only [c16Rang] at hn
    omega
  | half c second =>
    refine ⟨.wordC, c16Rang + 2 * (c - c16Rang) + second.toNat, ?_, rfl⟩
    obtain ⟨h1, h2⟩ := h
    unfold MbElement.denoted
    rw [if_pos ⟨rfl, by omega⟩]
    cases second <;> simp <;> omega

/-- An address is the only one of what it denotes exactly when that does not lie in two windows; of
the existing elements all those have exactly one address; and no two sections meet but the second of
`Y` and the first of `C`. -/
theorem addressMap_injective_iff (x : Denoted) :
    (∀ kind a, denotes kind a = some x →
      ((∀ b, denotes kind b = some x → b = a) ↔ ¬ x.Twice)) ∧
    (x.Present → ((∃! a, denotes x.kind a = some x) ↔ ¬ x.Twice)) ∧
    modbusMapTable.Pairwise fun r q => r.Apart q ↔
      ¬ (r = ⟨.bit, .bitY, 10000, 11999, 256, 1792⟩ ∧ q = ⟨.bit, .bitC, 9200, 10000, 0, 256⟩) := by
  have hsole : ∀ kind a, denotes kind a = some x →
      ((∀ b, denotes kind b = some x → b = a) ↔ ¬ x.Twice) := by
    intro kind a hx
    obtain ⟨t, n, -, rfl⟩ := denotes_eq_some_iff.mp hx
    obtain ⟨rfl, ha⟩ := denotes_denoted_iff.mp hx
    rw [t.twice_denoted, ← sole_iff ha]
    simp only [denotes_denoted_iff, true_and]
  refine ⟨hsole, ?_, by decide⟩
  intro hx
  obtain ⟨t, n, rfl, hk⟩ := Denoted.exists_denoted hx
  obtain ⟨a, ha⟩ := exists_address hx
  have hden : denotes (t.denoted n).kind a = some (t.denoted n) := by
    rw [hk, denotes_denoted_iff]
    exact ⟨rfl, ha⟩
  rw [← hsole _ a hden]
  constructor
  · rintro ⟨c, hc, hunique⟩ b hb
    exact (hunique b hb).trans (hunique a hden).symm
  · exact fun h => ⟨a, hden, h⟩

/-- `X256` has an address in both sections of `X`, so the map is not injective, and the windows of
`Y` and `C` meet. -/
theorem x256_twice :
    ¬ ((∀ kind a b x, denotes kind a = some x → denotes kind b = some x → a = b) ∧
      modbusMapTable.Pairwise MapRow.Apart ∧
      ∀ x : Denoted, x.Present → ∃! a, denotes x.kind a = some x) := by
  rintro ⟨hinj, -, -⟩
  exact absurd (hinj .bit 1456 12000 (.element .bitX 256) (by decide) (by decide)) (by decide)

end Kalyke
