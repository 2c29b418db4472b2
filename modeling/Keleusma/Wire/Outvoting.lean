import Keleusma.Wire.RoundTrip

/-!
# Damaged headers

A fault in one copy of the prologue or of the directory is outvoted by the other two, also when
faults in different copies come together at different bits. A container that is damaged so is read
as the intact one, and the view says that it needs a scrub (`damaged_reads`).
-/

namespace KeleusmaWire

variable {bits : ℕ} {b : WireBuilder} {bytes damaged : List Byte} {rs : List Region}

/-- At every bit of a byte that is kept in three copies, at most one of the copies is wrong. -/
def AtMostOneWrong (bytes damaged : List Byte) (start span i : ℕ) : Prop :=
  ∀ k < 8, ∀ c < 3, ∀ c' < 3,
    (byteAt damaged (start + c * span + i)).getLsbD k ≠
      (byteAt bytes (start + c * span + i)).getLsbD k →
    (byteAt damaged (start + c' * span + i)).getLsbD k ≠
      (byteAt bytes (start + c' * span + i)).getLsbD k → c = c'

/-- **A damaged copy**: the payloads are intact, and at every bit of the prologue and of the
directory at most one of the three copies is wrong. -/
structure HeaderDamage (regionCount : ℕ) (bytes damaged : List Byte) : Prop where
  length : damaged.length = bytes.length
  payload : ∀ i, 48 * regionCount + 48 ≤ i → byteAt damaged i = byteAt bytes i
  prologue : ∀ i < prologueBytes, AtMostOneWrong bytes damaged 0 prologueBytes i
  directory : ∀ i < regionCount * dirEntryBytes,
    AtMostOneWrong bytes damaged directoryOffset (regionCount * dirEntryBytes) i

/-! ## The votes of the damaged copy -/

/-- At most one wrong copy is outvoted. -/
theorem AtMostOneWrong.outvoted {start : ℕ} {c : List Byte} {i : ℕ} (hc : Copied bytes start c)
    (hi : i < c.length) (h : AtMostOneWrong bytes damaged start c.length i) :
    ErrorCorrection.Outvoted (byteAt c i) (byteAt damaged (start + i))
      (byteAt damaged (start + c.length + i)) (byteAt damaged (start + 2 * c.length + i)) := by
  intro k hk
  obtain ⟨h₁, h₂, h₃⟩ := hc i hi
  have h01 := h k hk 0 (by decide) 1 (by decide)
  have h02 := h k hk 0 (by decide) 2 (by decide)
  have h12 := h k hk 1 (by decide) 2 (by decide)
  simp only [Nat.zero_mul, Nat.one_mul, Nat.add_zero, h₁, h₂, h₃] at h01 h02 h12
  by_cases hA : (byteAt damaged (start + i)).getLsbD k = (byteAt c i).getLsbD k
  · by_cases hB : (byteAt damaged (start + c.length + i)).getLsbD k = (byteAt c i).getLsbD k
    · exact .inl ⟨hA, hB⟩
    · refine .inr (.inl ⟨hA, ?_⟩)
      by_contra hC
      exact absurd (h12 hB hC) (by decide)
  · refine .inr (.inr ⟨?_, ?_⟩)
    · by_contra hB
      exact absurd (h01 hA hB) (by decide)
    · by_contra hC
      exact absurd (h02 hA hC) (by decide)

theorem AtMostOneWrong.voted {start : ℕ} {c : List Byte} {i : ℕ} (hc : Copied bytes start c)
    (hi : i < c.length) (h : AtMostOneWrong bytes damaged start c.length i) :
    voted damaged start c.length i = byteAt c i :=
  ErrorCorrection.majority_eq (h.outvoted hc hi)

/-- Some copy of the list differs from its intact one. -/
def CopyDiffers (bytes damaged : List Byte) (start span : ℕ) : Prop :=
  ∃ i < 3 * span, byteAt damaged (start + i) ≠ byteAt bytes (start + i)

/-- A copy is outvoted exactly when it differs from its intact one. -/
theorem any_disagrees_iff {start : ℕ} {c : List Byte} (hc : Copied bytes start c)
    (h : ∀ i < c.length, voted damaged start c.length i = byteAt c i) :
    (List.range c.length).any (disagrees damaged start c.length) ↔
      CopyDiffers bytes damaged start c.length := by
  rw [List.any_eq_true]
  constructor
  · rintro ⟨i, hi, hdis⟩
    have hi := List.mem_range.mp hi
    obtain ⟨h₁, h₂, h₃⟩ := hc i hi
    rw [disagrees, h i hi, Bool.or_eq_true, Bool.or_eq_true, bne_iff_ne, bne_iff_ne,
      bne_iff_ne] at hdis
    rcases hdis with (hne | hne) | hne
    · exact ⟨i, by omega, h₁ ▸ hne⟩
    · rw [← h₂, Nat.add_assoc] at hne
      exact ⟨c.length + i, by omega, hne⟩
    · rw [← h₃, Nat.add_assoc] at hne
      exact ⟨2 * c.length + i, by omega, hne⟩
  · rintro ⟨j, hj, hne⟩
    obtain ⟨i, hi, hcopy⟩ : ∃ i < c.length, j = i ∨ j = c.length + i ∨ j = 2 * c.length + i := by
      rcases lt_or_ge j c.length with h₀ | h₀
      · exact ⟨j, h₀, .inl rfl⟩
      · rcases lt_or_ge j (2 * c.length) with h₁ | h₁
        · exact ⟨j - c.length, by omega, by omega⟩
        · exact ⟨j - 2 * c.length, by omega, by omega⟩
    obtain ⟨h₁, h₂, h₃⟩ := hc i hi
    refine ⟨i, List.mem_range.mpr hi, ?_⟩
    rw [disagrees, h i hi, Bool.or_eq_true, Bool.or_eq_true, bne_iff_ne, bne_iff_ne, bne_iff_ne]
    rcases hcopy with rfl | rfl | rfl
    · rw [h₁] at hne
      exact .inl (.inl hne)
    · rw [← Nat.add_assoc, h₂] at hne
      exact .inl (.inr hne)
    · rw [← Nat.add_assoc, h₃] at hne
      exact .inr hne

/-! ## Reading the damaged copy -/

/-- The damaged copy of a container is readable, with the same directory. -/
theorem Container.readable_damaged (h : Container bits b bytes rs)
    (hd : HeaderDamage rs.length bytes damaged) : Readable bits damaged rs := by
  have hread := h.readable
  have hdir := h.directory
  refine ⟨hread.count, hd.length ▸ hread.length_lt, fun i hi => ?_, fun i hi => ?_, hread.kinds,
    hd.length ▸ hread.header, hd.length ▸ hread.inside⟩
  · have hlen : prologueBytes = (prologueOf (countOf rs)).length := (length_prologueOf _).symm
    have hwrong := hd.prologue i hi
    rw [hlen] at hi hwrong ⊢
    exact hwrong.voted h.prologue hi
  · have hi' : i < (rs.flatMap entryBytes).length := by rwa [length_entries]
    have hwrong := hd.directory i hi
    rw [dirEntryBytes, ← length_entries] at hwrong
    rw [← length_entries]
    exact hwrong.voted hdir hi'

/-- Bytes that agree on a span have the same slice there. -/
theorem slice_congr {pos n : ℕ} (hlen : damaged.length = bytes.length) (hn : pos + n ≤ bytes.length)
    (h : ∀ i, pos ≤ i → byteAt damaged i = byteAt bytes i) :
    slice damaged pos n = slice bytes pos n := by
  rw [slice_eq_map (hlen ▸ hn), slice_eq_map hn]
  congr 1
  funext i
  exact h _ (Nat.le_add_right _ _)

/-- A copy of the header differs exactly if one of the prologue or one of the directory does. -/
theorem header_differs_iff (n : ℕ) :
    (CopyDiffers bytes damaged 0 prologueBytes ∨
      CopyDiffers bytes damaged directoryOffset (n * dirEntryBytes)) ↔
      ∃ i < 48 * n + 48, byteAt damaged i ≠ byteAt bytes i := by
  have hoff : directoryOffset = 48 := rfl
  rw [CopyDiffers, CopyDiffers, prologueBytes, dirEntryBytes, hoff]
  constructor
  · rintro (⟨i, hi, hne⟩ | ⟨i, hi, hne⟩)
    · exact ⟨0 + i, by omega, hne⟩
    · exact ⟨48 + i, by omega, hne⟩
  · rintro ⟨i, hi, hne⟩
    rcases lt_or_ge i 48 with h | h
    · exact .inl ⟨i, h, by rwa [Nat.zero_add]⟩
    · exact .inr ⟨i - 48, by omega, by rwa [Nat.add_sub_cancel' h]⟩

/-- **A damaged header is read as the intact one**: if at most one copy is wrong at every bit of the
prologue and of the directory, the damaged container parses, has the same regions with the same
payloads, and needs a scrub exactly when some copy differs. -/
theorem damaged_reads (hb : b.Reachable) (h : b.finish bits = .ok bytes) {v : WireView}
    (hv : WireView.parse bits bytes = .ok v) (hd : HeaderDamage v.regionCount bytes damaged) :
    ∃ v', WireView.parse bits damaged = .ok v' ∧ v'.regionCount = v.regionCount ∧
      (∀ i, v'.regionAt i = v.regionAt i) ∧ (∀ kind, v'.findRegion kind = v.findRegion kind) ∧
      (∀ i r, v.regionAt i = some r → v'.regionBytes bits r = v.regionBytes bits r) ∧
      (v'.needsScrub ↔ ∃ i < 48 * v.regionCount + 48, byteAt damaged i ≠ byteAt bytes i) := by
  obtain ⟨rs, hc⟩ := finish_container hb h
  have hread := hc.readable
  obtain rfl : Readable.view bytes rs = v := Except.ok.inj (hread.parse.symm.trans hv)
  have hread' := hc.readable_damaged hd
  refine ⟨Readable.view damaged rs, hread'.parse, rfl, fun i => ?_, fun kind => ?_,
    fun i r hr => ?_, ?_⟩
  · rw [hread'.regionAt rfl rfl, hread.regionAt rfl rfl]
  · rw [hread'.findRegion rfl rfl, hread.findRegion rfl rfl]
  · rw [hread.regionAt rfl rfl] at hr
    obtain ⟨hstart, hstop⟩ := hread.inside r (List.mem_of_getElem? hr)
    rw [hread'.regionBytes rfl (hd.length ▸ hstop), hread.regionBytes rfl hstop,
      slice_congr hd.length hstop fun i hi => hd.payload i (hstart.trans hi)]
  · have hdir := hc.directory
    have hlen : (prologueOf (countOf rs)).length = prologueBytes := length_prologueOf _
    have hprologue := any_disagrees_iff hc.prologue fun i hi => by
      rw [hlen] at hi ⊢
      exact hread'.prologue i hi
    rw [hlen] at hprologue
    have hdirectory := any_disagrees_iff hdir fun i hi => by
      rw [length_entries] at hi ⊢
      exact hread'.directory i hi
    rw [length_entries] at hdirectory
    rw [WireView.needsScrub, Bool.or_eq_true, ← header_differs_iff]
    exact or_congr hprologue hdirectory

/-! ## One byte of a copy -/

/-- One byte of the header may take any value. -/
theorem headerDamage_set {n pos : ℕ} (x : Byte) (hpos : pos < 48 * n + 48) :
    HeaderDamage n bytes (bytes.set pos x) := by
  have hwrong : ∀ start span i, i < span → AtMostOneWrong bytes (bytes.set pos x) start span i := by
    intro start span i hi k _ c _ c' _ hc hc'
    have hat : ∀ j, (byteAt (bytes.set pos x) j).getLsbD k ≠ (byteAt bytes j).getLsbD k →
        j = pos := by
      intro j hne
      by_contra hj
      exact hne (by rw [byteAt_set_ne x hj])
    have hsame : c * span = c' * span := by
      have := hat _ hc
      have := hat _ hc'
      omega
    exact Nat.eq_of_mul_eq_mul_right (Nat.zero_lt_of_lt hi) hsame
  refine ⟨List.length_set, fun i hi => byteAt_set_ne x (by omega), fun i hi => hwrong _ _ i hi,
    fun i hi => hwrong _ _ i hi⟩

/-- The region count in one copy of the prologue is damaged. -/
theorem oneRegion_damaged : ∃ v', WireView.parse 64 (oneRegionBytes.set 24 0xFF) = .ok v' ∧
    v'.regionCount = 2 := by
  obtain ⟨rs, hc⟩ := finish_container oneRegion_reachable oneRegion_finish
  have hcount : rs.length = 2 := (List.Forall₂.length_eq hc.describes).symm
  obtain ⟨v', hv', hregions, -⟩ := damaged_reads oneRegion_reachable oneRegion_finish
    hc.readable.parse (headerDamage_set 0xFF (show 24 < 48 * rs.length + 48 by omega))
  exact ⟨v', hv', hregions.trans hcount⟩

end KeleusmaWire
