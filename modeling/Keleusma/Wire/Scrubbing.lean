import Keleusma.Wire.RoundTrip

/-!
# Scrubbing

A codeword is a word of a protected region together with its check byte. When at most one bit of
every codeword is flipped, a scrub decodes every word, finds none uncorrectable and restores the
payloads (`scrub_damaged`). It does not write to the parity planes, so the container itself is
restored exactly when no flipped bit lies in a check byte (`scrub_restores_iff`).
-/

namespace KeleusmaWire

/-! ## Bits of a word -/

theorem toNat_wordAt {bytes : List Byte} {pos : ℕ} (h : pos + 8 ≤ bytes.length) :
    (wordAt bytes pos).toNat = LittleEndian.ofBytes (slice bytes pos 8) := by
  have hlt := LittleEndian.ofBytes_lt (slice bytes pos 8)
  rw [length_slice h] at hlt
  exact Nat.mod_eq_of_lt hlt

/-- A bit of a word is a bit of one of its bytes. -/
theorem getLsbD_wordAt {bytes : List Byte} {pos : ℕ} (h : pos + 8 ≤ bytes.length) {i : ℕ}
    (hi : i < 64) :
    (wordAt bytes pos).getLsbD i = (byteAt bytes (pos + i / 8)).getLsbD (i % 8) := by
  rw [BitVec.getLsbD, toNat_wordAt h, LittleEndian.testBit_ofBytes,
    ← byteAt_slice (n := 8) (by omega)]
  rfl

/-- The bytes of a word are the slice it was read from. -/
theorem toBytes_wordAt {bytes : List Byte} {pos : ℕ} (h : pos + 8 ≤ bytes.length) :
    LittleEndian.toBytes 8 (wordAt bytes pos).toNat = slice bytes pos 8 := by
  have hbytes := LittleEndian.toBytes_ofBytes (slice bytes pos 8)
  rwa [length_slice h, ← toNat_wordAt h] at hbytes

/-! ## Writing in place -/

theorem length_overwrite {bytes l : List Byte} {pos : ℕ} (h : pos + l.length ≤ bytes.length) :
    (overwrite bytes pos l).length = bytes.length := by
  rw [overwrite, List.length_append, List.length_append, List.length_take, List.length_drop]
  omega

theorem byteAt_overwrite {bytes l : List Byte} {pos : ℕ} (h : pos + l.length ≤ bytes.length)
    (q : ℕ) : byteAt (overwrite bytes pos l) q =
      if pos ≤ q ∧ q < pos + l.length then byteAt l (q - pos) else byteAt bytes q := by
  have htake : (bytes.take pos).length = pos := by
    rw [List.length_take]
    omega
  have hpre : (bytes.take pos ++ l).length = pos + l.length := by
    rw [List.length_append, htake]
  rw [overwrite]
  rcases lt_or_ge q pos with hq | hq
  · rw [if_neg (by omega), List.append_assoc, byteAt_append_left (by omega)]
    rw [byteAt, byteAt, List.getD_eq_getElem?_getD, List.getD_eq_getElem?_getD,
      List.getElem?_take_of_lt hq]
  · rcases lt_or_ge q (pos + l.length) with hq' | hq'
    · obtain ⟨i, rfl⟩ := Nat.exists_eq_add_of_le hq
      rw [if_pos ⟨hq, hq'⟩, byteAt_append_left (by omega), Nat.add_sub_cancel_left]
      have hright := byteAt_append_right (bytes.take pos) l i
      rwa [htake] at hright
    · obtain ⟨i, rfl⟩ := Nat.exists_eq_add_of_le hq'
      have hright := byteAt_append_right (bytes.take pos ++ l) (bytes.drop (pos + l.length)) i
      rw [hpre] at hright
      rw [if_neg (by omega), hright, byteAt, byteAt, List.getD_eq_getElem?_getD,
        List.getD_eq_getElem?_getD, List.getElem?_drop]

/-! ## Codewords -/

/-- A word of a protected region and the position of its check byte. -/
def Codeword (v : WireView) (pos check : ℕ) : Prop :=
  ∃ i e p w, v.regionAt i = some e ∧ e.isProtected ∧ v.planeOf e.kind = some p ∧
    8 * w < e.length ∧ pos = e.start + 8 * w ∧ check = p.start + w

/-- The position lies in the codeword. -/
def InCodeword (pos check q : ℕ) : Prop := (pos ≤ q ∧ q < pos + 8) ∨ q = check

/-- The bit differs from the original. -/
def Flipped (bytes damaged : List Byte) (q k : ℕ) : Prop :=
  (byteAt damaged q).getLsbD k ≠ (byteAt bytes q).getLsbD k

/-- **Bit damage**: outside the codewords nothing differs from the original, and at most one bit of
every codeword does. -/
structure BitDamage (v : WireView) (damaged : List Byte) : Prop where
  length : damaged.length = v.bytes.length
  outside : ∀ q, (∀ pos check, Codeword v pos check → ¬InCodeword pos check q) →
    byteAt damaged q = byteAt v.bytes q
  single : ∀ pos check, Codeword v pos check → ∀ q q' k k', InCodeword pos check q →
    InCodeword pos check q' → Flipped v.bytes damaged q k → Flipped v.bytes damaged q' k' →
    q = q' ∧ k = k'

/-- Restoring bytes keeps the damage within its bounds. -/
theorem BitDamage.restore {v : WireView} {damaged restored : List Byte} (h : BitDamage v damaged)
    (hlen : restored.length = damaged.length)
    (hbytes : ∀ q, byteAt restored q = byteAt damaged q ∨ byteAt restored q = byteAt v.bytes q) :
    BitDamage v restored := by
  have hflip : ∀ q k, Flipped v.bytes restored q k → Flipped v.bytes damaged q k := by
    intro q k hq
    rcases hbytes q with heq | heq
    · rwa [Flipped, heq] at hq
    · exact absurd (by rw [heq]) hq
  refine ⟨hlen.trans h.length, fun q hq => ?_, fun pos check hcw q q' k k' hq hq' hf hf' => ?_⟩
  · rcases hbytes q with heq | heq
    · exact heq.trans (h.outside q hq)
    · exact heq
  · exact h.single pos check hcw q q' k k' hq hq' (hflip q k hf) (hflip q' k' hf')

/-! ## Decoding a codeword -/

/-- **A damaged codeword is decoded**: its word is reported as the original one, clean or
corrected. -/
theorem decode_damaged {bytes damaged : List Byte} {pos check : ℕ} (hpos : pos + 8 ≤ bytes.length)
    (hlen : damaged.length = bytes.length) (hout : check < pos ∨ pos + 8 ≤ check)
    (hcheck : byteAt bytes check = checkByte (wordAt bytes pos))
    (hsingle : ∀ q q' k k', InCodeword pos check q → InCodeword pos check q' →
      Flipped bytes damaged q k → Flipped bytes damaged q' k' → q = q' ∧ k = k') :
    decodeWord (wordAt damaged pos) (byteAt damaged check) = .corrected (wordAt bytes pos) ∨
      wordAt damaged pos = wordAt bytes pos ∧
        decodeWord (wordAt damaged pos) (byteAt damaged check) = .clean (wordAt bytes pos) := by
  have hbit : ∀ i < 64, (wordAt damaged pos).getLsbD i ≠ (wordAt bytes pos).getLsbD i ↔
      Flipped bytes damaged (pos + i / 8) (i % 8) := by
    intro i hi
    rw [getLsbD_wordAt hpos hi, getLsbD_wordAt (hlen ▸ hpos) hi]
    rfl
  by_cases hdata : ∃ i < 64, (wordAt damaged pos).getLsbD i ≠ (wordAt bytes pos).getLsbD i
  · -- The flipped bit lies in the word, so the check byte is intact.
    obtain ⟨i, hi, hne⟩ := hdata
    have hflip := (hbit i hi).mp hne
    have hin : InCodeword pos check (pos + i / 8) := .inl ⟨by omega, by omega⟩
    have hword : wordAt damaged pos = wordAt bytes pos ^^^ (1#64 <<< i) := by
      refine ErrorCorrection.eq_flip hi hne fun j hj hji => ?_
      by_contra hne'
      obtain ⟨h₁, h₂⟩ := hsingle _ _ _ _ (.inl ⟨by omega, by omega⟩) hin ((hbit j hj).mp hne') hflip
      omega
    have hsame : byteAt damaged check = byteAt bytes check := by
      apply BitVec.eq_of_getLsbD_eq
      intro k hk
      by_contra hne'
      obtain ⟨h₁, -⟩ := hsingle _ _ _ _ (.inr rfl) hin hne' hflip
      omega
    left
    rw [hword, hsame, hcheck, decodeWord_flip_data _ hi]
  · have hword : wordAt damaged pos = wordAt bytes pos := by
      apply BitVec.eq_of_getLsbD_eq
      intro i hi
      by_contra hne
      exact hdata ⟨i, hi, hne⟩
    by_cases hparity : byteAt damaged check = byteAt bytes check
    · exact .inr ⟨hword, by rw [hword, hparity, hcheck, decodeWord_clean]⟩
    · -- The flipped bit lies in the check byte.
      obtain ⟨k, hk, hne⟩ : ∃ k < 8,
          (byteAt damaged check).getLsbD k ≠ (byteAt bytes check).getLsbD k := by
        by_contra hall
        refine hparity (BitVec.eq_of_getLsbD_eq fun k hk => ?_)
        by_contra hne
        exact hall ⟨k, hk, hne⟩
      have hflip : byteAt damaged check = byteAt bytes check ^^^ (1#8 <<< k) := by
        refine ErrorCorrection.eq_flip hk hne fun j hj hjk => ?_
        by_contra hne'
        exact hjk (hsingle _ _ _ _ (.inr rfl) (.inr rfl) hne' hne).2
      left
      rw [hword, hflip, hcheck, decodeWord_flip_check _ hk]

/-! ## Restored bytes -/

/-- The bytes of the span are those of the original, the others are kept. -/
structure Restored (bytes : List Byte) (span : ℕ → Prop) (damaged restored : List Byte) : Prop where
  length : restored.length = damaged.length
  inside : ∀ q, span q → byteAt restored q = byteAt bytes q
  outside : ∀ q, ¬span q → byteAt restored q = byteAt damaged q

theorem Restored.refl {bytes damaged : List Byte} {span : ℕ → Prop} (h : ∀ q, ¬span q) :
    Restored bytes span damaged damaged := ⟨rfl, fun q hq => absurd hq (h q), fun _ _ => rfl⟩

theorem Restored.trans {bytes s₀ s₁ s₂ : List Byte} {S T U : ℕ → Prop} (h₁ : Restored bytes S s₀ s₁)
    (h₂ : Restored bytes T s₁ s₂) (hU : ∀ q, U q ↔ S q ∨ T q) : Restored bytes U s₀ s₂ := by
  refine ⟨h₂.length.trans h₁.length, fun q hq => ?_, fun q hq => ?_⟩
  · by_cases hT : T q
    · exact h₂.inside q hT
    · have hS := ((hU q).mp hq).resolve_right hT
      exact (h₂.outside q hT).trans (h₁.inside q hS)
  · have hS : ¬S q := fun hS => hq ((hU q).mpr (.inl hS))
    have hT : ¬T q := fun hT => hq ((hU q).mpr (.inr hT))
    exact (h₂.outside q hT).trans (h₁.outside q hS)

theorem Restored.damage {v : WireView} {damaged restored : List Byte} {span : ℕ → Prop}
    (h : Restored v.bytes span damaged restored) (hd : BitDamage v damaged) :
    BitDamage v restored := by
  refine hd.restore h.length fun q => ?_
  by_cases hq : span q
  · exact .inr (h.inside q hq)
  · exact .inl (h.outside q hq)

/-! ## Scrubbing a region -/

/-- A protected region and its plane: both lie inside and share no byte. -/
structure Guarded (v : WireView) (e p : Region) : Prop where
  protects : Protects v.bytes e p
  codeword : ∀ w, 8 * w < e.length → Codeword v (e.start + 8 * w) (p.start + w)
  data : e.stop ≤ v.bytes.length
  plane : p.stop ≤ v.bytes.length
  apart : e.stop ≤ p.start ∨ p.stop ≤ e.start

/-- A whole word in range: it is decoded against its check byte and written back if corrected. -/
theorem scrubWords_eq {bytes : List Byte} {base len planeBase planeLen w : ℕ} (ws : List ℕ)
    (total : EccReport) (hw : 8 * w + 8 ≤ len) (hdata : base + len ≤ bytes.length)
    (hplane : planeBase + planeLen ≤ bytes.length) (hcover : w < planeLen) :
    scrubWords base len planeBase planeLen (w :: ws) (bytes, total) =
      let status := decodeWord (wordAt bytes (base + 8 * w)) (byteAt bytes (planeBase + w))
      scrubWords base len planeBase planeLen ws
        (match status with
          | .corrected fixed =>
            overwrite bytes (base + 8 * w) (LittleEndian.toBytes 8 fixed.toNat)
          | _ => bytes,
        total.count (some status)) := by
  have hget : bytes[planeBase + w]? = some (byteAt bytes (planeBase + w)) := by
    have hlt : planeBase + w < bytes.length := by omega
    rw [List.getElem?_eq_getElem hlt, byteAt_eq_getElem hlt]
  have hstop : min (base + 8 * w + 8) (base + len) = base + 8 * w + 8 := by omega
  have hspan : base + 8 * w + 8 - (base + 8 * w) = 8 := by omega
  have hpos : base + w * 8 = base + 8 * w := by omega
  have hslice : (slice bytes (base + 8 * w) 8).length = 8 := length_slice (by omega)
  have htake : ∀ v, (LittleEndian.toBytes 8 v).take 8 = LittleEndian.toBytes 8 v := fun v =>
    List.take_of_length_le (LittleEndian.length_toBytes 8 v).le
  rw [scrubWords]
  simp only [hget, if_neg (not_le.mpr hcover), hstop, hspan, hpos]
  rw [if_pos (by omega), hslice, Nat.sub_self, List.replicate_zero, List.append_nil]
  simp only [htake]
  rfl

/-- **One word**: a scrub of a damaged word restores it and counts nothing uncorrectable. -/
theorem scrubWords_cons {v : WireView} {e p : Region} (hg : Guarded v e p) {damaged : List Byte}
    (hd : BitDamage v damaged) {w : ℕ} (hw : 8 * w < e.length) (ws : List ℕ) (total : EccReport) :
    ∃ restored total', Restored v.bytes (fun q => e.start + 8 * w ≤ q ∧ q < e.start + 8 * w + 8)
        damaged restored ∧ total'.uncorrectable = total.uncorrectable ∧
      scrubWords e.start e.length p.start p.length (w :: ws) (damaged, total) =
        scrubWords e.start e.length p.start p.length ws (restored, total') := by
  have hlen := hd.length
  have hcover := hg.protects.length
  have hdata : e.start + e.length ≤ v.bytes.length := hg.data
  have hplane : p.start + p.length ≤ v.bytes.length := hg.plane
  have hapart : e.start + e.length ≤ p.start ∨ p.start + p.length ≤ e.start := hg.apart
  have hwhole : e.length = 8 * e.wordLength.toNat := rfl
  have hpos : e.start + 8 * w + 8 ≤ v.bytes.length := by omega
  have hparity := hg.protects.parity w hw
  have hcheck : byteAt v.bytes (p.start + w) = checkByte (wordAt v.bytes (e.start + 8 * w)) := by
    rw [byteAt, List.getD_eq_getElem?_getD, hparity, Option.getD_some]
  have hslice : (slice v.bytes (e.start + 8 * w) 8).length = 8 := length_slice hpos
  have hread : ∀ q, e.start + 8 * w ≤ q ∧ q < e.start + 8 * w + 8 →
      byteAt (slice v.bytes (e.start + 8 * w) 8) (q - (e.start + 8 * w)) = byteAt v.bytes q := by
    rintro q ⟨h₁, h₂⟩
    rw [byteAt_slice (by omega), Nat.add_sub_cancel' h₁]
  rw [scrubWords_eq ws total (by omega) (hlen ▸ hdata) (hlen ▸ hplane) (by omega)]
  rcases decode_damaged hpos hlen (by omega) hcheck (hd.single _ _ (hg.codeword w hw)) with
    hfix | ⟨hsame, hclean⟩
  · refine ⟨overwrite damaged (e.start + 8 * w) (slice v.bytes (e.start + 8 * w) 8),
      total.count (some (.corrected (wordAt v.bytes (e.start + 8 * w)))),
      ⟨length_overwrite (by omega), fun q hq => ?_, fun q hq => ?_⟩, rfl, ?_⟩
    · rw [byteAt_overwrite (by omega), hslice, if_pos hq, hread q hq]
    · rw [byteAt_overwrite (by omega), hslice, if_neg hq]
    · simp only [hfix, toBytes_wordAt hpos]
  · refine ⟨damaged, total.count (some (.clean (wordAt v.bytes (e.start + 8 * w)))),
      ⟨rfl, fun q hq => ?_, fun _ _ => rfl⟩, rfl, ?_⟩
    · have hbytes := congrArg (fun x : BitVec 64 => LittleEndian.toBytes 8 x.toNat) hsame
      simp only [toBytes_wordAt hpos, toBytes_wordAt (hlen ▸ hpos)] at hbytes
      rw [← hread q hq, ← hbytes, byteAt_slice (by omega), Nat.add_sub_cancel' hq.1]
    · simp only [hclean]

/-- **The words of a region**: a scrub restores the words it goes through. -/
theorem scrubWords_restores {v : WireView} {e p : Region} (hg : Guarded v e p) {ws : List ℕ}
    (hws : ∀ w ∈ ws, 8 * w < e.length) {damaged : List Byte} (hd : BitDamage v damaged)
    (total : EccReport) :
    ∃ restored total', Restored v.bytes
        (fun q => ∃ w ∈ ws, e.start + 8 * w ≤ q ∧ q < e.start + 8 * w + 8) damaged restored ∧
      total'.uncorrectable = total.uncorrectable ∧
      scrubWords e.start e.length p.start p.length ws (damaged, total) = (restored, total') := by
  induction ws generalizing damaged total with
  | nil => exact ⟨damaged, total, .refl fun q hq => by simp at hq, rfl, rfl⟩
  | cons w ws ih =>
    obtain ⟨mid, total₁, hmid, hcount, hstep⟩ :=
      scrubWords_cons hg hd (hws w List.mem_cons_self) ws total
    obtain ⟨restored, total₂, hrestored, hcount', hrun⟩ :=
      ih (fun w hw => hws w (List.mem_cons_of_mem _ hw)) (hmid.damage hd) total₁
    refine ⟨restored, total₂, hmid.trans hrestored fun q => ?_, hcount'.trans hcount,
      hstep.trans hrun⟩
    simp only [List.mem_cons, exists_eq_or_imp]

/-- **A region**: a scrub restores its payload. -/
theorem scrubWords_region {v : WireView} {e p : Region} (hg : Guarded v e p) {damaged : List Byte}
    (hd : BitDamage v damaged) (total : EccReport) :
    ∃ restored total', Restored v.bytes (fun q => e.start ≤ q ∧ q < e.stop) damaged restored ∧
      total'.uncorrectable = total.uncorrectable ∧
      scrubWords e.start e.length p.start p.length (List.range ((e.length + 7) / 8))
        (damaged, total) = (restored, total') := by
  have hwhole : e.length = 8 * e.wordLength.toNat := rfl
  have hstop : e.stop = e.start + e.length := rfl
  have hwords : ∀ w ∈ List.range ((e.length + 7) / 8), 8 * w < e.length := by
    intro w hw
    have := List.mem_range.mp hw
    omega
  obtain ⟨restored, total', hrestored, hcount, hrun⟩ := scrubWords_restores hg hwords hd total
  refine ⟨restored, total', ⟨hrestored.length, fun q hq => ?_, fun q hq => ?_⟩, hcount, hrun⟩
  · refine hrestored.inside q ⟨(q - e.start) / 8, List.mem_range.mpr ?_, ?_⟩
    · omega
    · omega
  · refine hrestored.outside q fun ⟨w, hw, hw'⟩ => hq ?_
    have := List.mem_range.mp hw
    omega

/-! ## Scrubbing a container -/

/-- The position lies in the payload of a protected region among the given ones. -/
def InProtected (rs : List Region) (is : List ℕ) (q : ℕ) : Prop :=
  ∃ i ∈ is, ∃ e, rs[i]? = some e ∧ e.isProtected ∧ e.start ≤ q ∧ q < e.stop

namespace Container

variable {bits : ℕ} {b : WireBuilder} {bytes damaged : List Byte} {rs : List Region}

/-- Different entries share no byte. -/
theorem apart (h : Container bits b bytes rs) {r r' : Region} (hr : r ∈ rs) (hr' : r' ∈ rs)
    (hne : r ≠ r') : r.stop ≤ r'.start ∨ r'.stop ≤ r.start := by
  have hpair : rs.Pairwise fun r r' => r.stop ≤ r'.start ∨ r'.stop ≤ r.start :=
    h.sorted.imp fun h => .inl h
  have : Std.Symm fun r r' : Region => r.stop ≤ r'.start ∨ r'.stop ≤ r.start :=
    ⟨fun _ _ h => h.symm⟩
  exact hpair.forall hr hr' hne

/-- A protected region is guarded by its plane. -/
theorem guarded (hb : b.Valid) (h : Container bits b bytes rs) {i : ℕ} {e : Region}
    (he : rs[i]? = some e) (hprot : e.isProtected) : ∃ p ∈ rs,
      (rs.find? fun c => c.isEccPlane && c.covers == e.kind) = some p ∧
      Guarded (Readable.view bytes rs) e p := by
  have hmem := List.mem_of_getElem? he
  obtain ⟨p, hp, hplane, hfind, hprotects⟩ := h.plane hb hmem hprot
  have hread := h.readable
  refine ⟨p, hp, hfind, hprotects, fun w hw => ⟨i, e, p, w, ?_, hprot, ?_, hw, rfl, rfl⟩,
    (hread.inside e hmem).2, (hread.inside p hp).2, h.apart hmem hp ?_⟩
  · rw [hread.regionAt rfl rfl, he]
  · rw [hread.planeOf rfl rfl, hfind]
  · rintro rfl
    rw [Region.isProtected, hplane] at hprot
    cases hprot

/-- A codeword lies after the header. -/
theorem codeword_inside (h : Container bits b bytes rs) {pos check q : ℕ}
    (hcw : Codeword (Readable.view bytes rs) pos check) (hq : InCodeword pos check q) :
    48 * rs.length + 48 ≤ q := by
  obtain ⟨i, e, p, w, he, hprot, hplane, hw, rfl, rfl⟩ := hcw
  have hread := h.readable
  rw [hread.regionAt rfl rfl] at he
  rw [hread.planeOf rfl rfl] at hplane
  have hestart := (hread.inside e (List.mem_of_getElem? he)).1
  have hpstart := (hread.inside p (List.mem_of_find?_eq_some hplane)).1
  rcases hq with hq | hq
  · omega
  · omega

/-- A container with bit damage is readable, with the same directory. -/
theorem readable_bitDamage (h : Container bits b bytes rs)
    (hd : BitDamage (Readable.view bytes rs) damaged) : Readable bits damaged rs := by
  have hread := h.readable
  have hlen : damaged.length = bytes.length := hd.length
  have hsame : ∀ q < 48 * rs.length + 48, byteAt damaged q = byteAt bytes q := by
    refine fun q hq => hd.outside q fun pos check hcw hin => ?_
    have := h.codeword_inside hcw hin
    omega
  have hoff : directoryOffset = 48 := rfl
  refine ⟨hread.count, hlen ▸ hread.length_lt, fun i hi => ?_, fun i hi => ?_, hread.kinds,
    hlen ▸ hread.header, hlen ▸ hread.inside⟩
  · rw [← hread.prologue i hi]
    rw [prologueBytes] at hi ⊢
    rw [voted, voted, hsame _ (by omega), hsame _ (by omega), hsame _ (by omega)]
  · rw [← hread.directory i hi, hoff, voted, voted, hsame _ (by omega), hsame _ (by omega),
      hsame _ (by omega)]

/-- A region without a plane is passed over. -/
theorem scrubSpans_none (h : Container bits b bytes rs)
    (hd : BitDamage (Readable.view bytes rs) damaged) {i : ℕ} {e : Region} (he : rs[i]? = some e)
    (hprot : e.isProtected = false) : scrubSpans bits (Readable.view damaged rs) i = none := by
  have hread := h.readable_bitDamage hd
  have hskip : (e.isEccPlane || !e.hasEcc) = true := by
    rw [Region.isProtected] at hprot
    rw [← Bool.not_not e.isEccPlane, ← Bool.not_and, hprot]
    rfl
  rw [scrubSpans, hread.regionAt rfl rfl, he]
  exact if_pos hskip

/-- Where a scrub finds a protected region and its plane. -/
theorem scrubSpans_some (h : Container bits b bytes rs)
    (hd : BitDamage (Readable.view bytes rs) damaged) {i : ℕ} {e p : Region}
    (he : rs[i]? = some e) (hprot : e.isProtected) (hp : p ∈ rs)
    (hfind : (rs.find? fun c => c.isEccPlane && c.covers == e.kind) = some p) :
    scrubSpans bits (Readable.view damaged rs) i =
      some (e.start, e.length, p.start, p.length) := by
  have hread := h.readable_bitDamage hd
  have hkeep : ¬(e.isEccPlane || !e.hasEcc) = true := by
    rw [Region.isProtected] at hprot
    rw [← Bool.not_not e.isEccPlane, ← Bool.not_and, hprot]
    exact Bool.false_ne_true
  have hestop := (hread.inside e (List.mem_of_getElem? he)).2
  have hpstop := (hread.inside p hp).2
  have hebytes := hread.regionBytes (v := Readable.view damaged rs) rfl hestop
  have hpbytes := hread.regionBytes (v := Readable.view damaged rs) rfl hpstop
  have heoff := Region.byteOffset_eq (lt_of_le_of_lt hestop hread.length_lt)
  have hpoff := Region.byteOffset_eq (lt_of_le_of_lt hpstop hread.length_lt)
  rw [scrubSpans, hread.regionAt rfl rfl, he]
  simp only [Option.bind_eq_bind, Option.bind_some]
  rw [if_neg hkeep, heoff, hebytes, hread.planeOf rfl rfl, hfind]
  simp only [Option.bind_some, Except.toOption, hpoff, hpbytes]
  rw [length_slice hestop, length_slice hpstop]
  rfl

/-- **The regions of a container**: a scrub restores the payloads of the protected ones it goes
through, and finds nothing uncorrectable. -/
theorem scrubRegions_restores (hb : b.Valid) (h : Container bits b bytes rs) {is : List ℕ}
    (his : ∀ i ∈ is, i < rs.length) (hd : BitDamage (Readable.view bytes rs) damaged)
    (anyPlane : Bool) (total : EccReport) :
    ∃ restored total', Restored bytes (InProtected rs is) damaged restored ∧
      total'.uncorrectable = total.uncorrectable ∧
      scrubRegions bits is anyPlane (damaged, total) =
        (restored, if anyPlane || is.any fun i => rs[i]?.any Region.isProtected then some total'
          else none) := by
  induction is generalizing damaged anyPlane total with
  | nil =>
    refine ⟨damaged, total, .refl fun q hq => ?_, rfl, ?_⟩
    · obtain ⟨i, hi, -⟩ := hq
      cases hi
    · rw [scrubRegions, List.any_nil, Bool.or_false]
  | cons i is ih =>
    have htail : ∀ j ∈ is, j < rs.length := fun j hj => his j (List.mem_cons_of_mem _ hj)
    obtain ⟨e, he⟩ : ∃ e, rs[i]? = some e :=
      ⟨_, List.getElem?_eq_getElem (his i List.mem_cons_self)⟩
    have hparse := (h.readable_bitDamage hd).parse
    have hspan : ∀ q, InProtected rs (i :: is) q ↔
        (e.isProtected ∧ e.start ≤ q ∧ q < e.stop) ∨ InProtected rs is q := by
      intro q
      simp only [InProtected, List.mem_cons, exists_eq_or_imp, he, Option.some.injEq,
        exists_eq_left']
    cases hprot : e.isProtected with
    | false =>
      obtain ⟨restored, total', hrestored, hcount, hrun⟩ := ih htail hd anyPlane total
      refine ⟨restored, total', ?_, hcount, ?_⟩
      · have hnothing : Restored bytes (fun _ => False) damaged damaged := .refl fun _ => id
        refine hnothing.trans hrestored fun q => ?_
        rw [hspan, hprot]
        simp
      · rw [scrubRegions, hparse]
        simp only [h.scrubSpans_none hd he hprot, hrun, List.any_cons, he, Option.any_some, hprot,
          Bool.false_or]
    | true =>
      obtain ⟨p, hp, hfind, hguard⟩ := h.guarded hb he hprot
      obtain ⟨mid, total₁, hmid, hcount₁, hrun₁⟩ := scrubWords_region hguard hd total
      obtain ⟨restored, total', hrestored, hcount, hrun⟩ := ih htail (hmid.damage hd) true total₁
      refine ⟨restored, total', hmid.trans hrestored fun q => ?_, hcount.trans hcount₁, ?_⟩
      · rw [hspan, hprot]
        simp
      · rw [scrubRegions, hparse]
        simp only [h.scrubSpans_some hd he hprot hp hfind, hrun₁, hrun, List.any_cons, he,
          Option.any_some, hprot, Bool.true_or, Bool.or_true]

/-- **A scrub of a damaged container** restores the payload of every protected region, keeps every
other byte and finds nothing uncorrectable. -/
theorem scrub_damaged (hb : b.Valid) (h : Container bits b bytes rs)
    (hprot : rs.any Region.isProtected) (hd : BitDamage (Readable.view bytes rs) damaged) :
    ∃ restored report, Restored bytes (InProtected rs (List.range rs.length)) damaged restored ∧
      report.uncorrectable = 0 ∧ scrub bits damaged = (restored, some report) := by
  have hentries : ∀ i ∈ List.range rs.length, i < rs.length := fun i hi => List.mem_range.mp hi
  obtain ⟨restored, report, hrestored, hcount, hrun⟩ :=
    h.scrubRegions_restores hb hentries hd false ⟨0, 0, 0⟩
  have hany : (List.range rs.length).any (fun i => rs[i]?.any Region.isProtected) = true := by
    obtain ⟨e, he, hep⟩ := List.any_eq_true.mp hprot
    obtain ⟨i, hi, rfl⟩ := List.getElem_of_mem he
    refine List.any_eq_true.mpr ⟨i, List.mem_range.mpr hi, ?_⟩
    rw [List.getElem?_eq_getElem hi, Option.any_some, hep]
  refine ⟨restored, report, hrestored, hcount, ?_⟩
  rw [scrub, (h.readable_bitDamage hd).parse]
  rw [hany] at hrun
  exact hrun

/-- A check byte lies in no protected payload. -/
theorem check_outside (hb : b.Valid) (h : Container bits b bytes rs) {pos check : ℕ}
    (hcw : Codeword (Readable.view bytes rs) pos check) (is : List ℕ) :
    ¬InProtected rs is check := by
  rintro ⟨j, -, e', he', hprot', hlo, hhi⟩
  obtain ⟨i, e, p, w, he, hprot, hplane, hw, rfl, rfl⟩ := hcw
  have hread := h.readable
  rw [hread.regionAt rfl rfl] at he
  rw [hread.planeOf rfl rfl] at hplane
  obtain ⟨p', hp', hfind, hguard⟩ := h.guarded hb he hprot
  obtain rfl : p' = p := Option.some.inj (hfind.symm.trans hplane)
  have hfound := List.find?_some hplane
  rw [Bool.and_eq_true] at hfound
  have hecc : p'.isEccPlane := hfound.1
  have hne : p' ≠ e' := by
    rintro rfl
    rw [Region.isProtected, hecc] at hprot'
    cases hprot'
  have hcover := hguard.protects.length
  have hstop : p'.stop = p'.start + p'.length := rfl
  have hapart := h.apart hp' (List.mem_of_getElem? he') hne
  omega

/-- A payload byte of a codeword lies in a protected payload. -/
theorem data_inside (h : Container bits b bytes rs) {pos check q : ℕ}
    (hcw : Codeword (Readable.view bytes rs) pos check) (hq : pos ≤ q ∧ q < pos + 8) :
    InProtected rs (List.range rs.length) q := by
  obtain ⟨i, e, p, w, he, hprot, -, hw, rfl, rfl⟩ := hcw
  rw [h.readable.regionAt rfl rfl] at he
  have hlt : i < rs.length := by
    by_contra hle
    rw [List.getElem?_eq_none (not_lt.mp hle)] at he
    cases he
  have hwhole : e.length = 8 * e.wordLength.toNat := rfl
  have hstop : e.stop = e.start + e.length := rfl
  exact ⟨i, List.mem_range.mpr hlt, e, he, hprot, by omega, by omega⟩

end Container

variable {bits : ℕ} {b : WireBuilder} {bytes damaged : List Byte} {v : WireView}

/-- Lists of bytes that agree byte by byte. -/
theorem ext_byteAt {l l' : List Byte} (hlen : l.length = l'.length)
    (h : ∀ q, byteAt l q = byteAt l' q) : l = l' := by
  apply List.ext_getElem hlen
  intro q h₁ h₂
  rw [← byteAt_eq_getElem h₁, ← byteAt_eq_getElem h₂, h]

/-- A scan of the artifact finds planes and no damaged word. -/
def ScansClean (usizeBits : ℕ) (bytes : List Byte) : Prop :=
  ∃ v report, WireView.parse usizeBits bytes = .ok v ∧ v.verifyAll usizeBits = some report ∧
    report.corrected = 0 ∧ report.uncorrectable = 0

/-- **A scrub restores the container exactly when no flipped bit lies in a check byte**: for every
container with a protected region and every damage of at most one bit in each codeword, the scrub
finds no uncorrectable word and leaves the original bytes, which scan as clean, if and only if the
check byte of every codeword is intact. -/
theorem scrub_restores_iff (hb : b.Reachable) (h : b.finish bits = .ok bytes)
    (hprot : b.regions.any fun r => r.eccKind.isSome) (hv : WireView.parse bits bytes = .ok v)
    (hd : BitDamage v damaged) :
    (∃ report, scrub bits damaged = (bytes, some report) ∧ report.uncorrectable = 0 ∧
      ScansClean bits (scrub bits damaged).1) ↔
      ∀ pos check, Codeword v pos check → byteAt damaged check = byteAt bytes check := by
  obtain ⟨rs, hc⟩ := finish_container hb h
  have hvalid := hb.valid
  obtain rfl : Readable.view bytes rs = v := Except.ok.inj (hc.readable.parse.symm.trans hv)
  obtain ⟨restored, report, hrestored, hcount, hscrub⟩ :=
    hc.scrub_damaged hvalid ((hc.any_protected hvalid).trans hprot) hd
  rw [hscrub]
  constructor
  · rintro ⟨report', heq, -, -⟩ pos check hcw
    obtain rfl : restored = bytes := congrArg Prod.fst heq
    exact (hrestored.outside check (hc.check_outside hvalid hcw _)).symm
  · intro hcheck
    have hsame : restored = bytes := by
      refine ext_byteAt (hrestored.length.trans hd.length) fun q => ?_
      by_cases hq : InProtected rs (List.range rs.length) q
      · exact hrestored.inside q hq
      · rw [hrestored.outside q hq]
        by_cases hcw : ∃ pos check, Codeword (Readable.view bytes rs) pos check ∧
            InCodeword pos check q
        · obtain ⟨pos, check, hcw, hdata | rfl⟩ := hcw
          · exact absurd (hc.data_inside hcw hdata) hq
          · exact hcheck pos q hcw
        · exact hd.outside q fun pos check hcw' hin => hcw ⟨pos, check, hcw', hin⟩
    subst hsame
    obtain ⟨hclean, hsome⟩ := hc.verifyAll hvalid (v := Readable.view restored rs) rfl rfl
    rw [hprot] at hsome
    obtain ⟨found, hfound⟩ := Option.isSome_iff_exists.mp hsome
    obtain ⟨hcorrected, huncorrectable⟩ := hclean found hfound
    exact ⟨report, rfl, hcount, Readable.view restored rs, found, hc.readable.parse, hfound,
      hcorrected, huncorrectable⟩

/-! ## One flipped bit -/

/-- The bytes with one bit flipped. -/
def flipBit (bytes : List Byte) (q k : ℕ) : List Byte :=
  bytes.set q (byteAt bytes q ^^^ (1#8 <<< k))

/-- One flipped bit of a codeword is within the bounds of the damage. -/
theorem bitDamage_flipBit {pos check q k : ℕ} (hcw : Codeword v pos check)
    (hq : InCodeword pos check q) (hlt : q < v.bytes.length) (hk : k < 8) :
    BitDamage v (flipBit v.bytes q k) := by
  have hflip : ∀ q' k', Flipped v.bytes (flipBit v.bytes q k) q' k' → q' = q ∧ k' = k := by
    intro q' k' hf
    by_cases hq' : q' = q
    · subst hq'
      refine ⟨rfl, ?_⟩
      by_contra hk'
      rw [Flipped, flipBit, byteAt_set_self _ hlt, ErrorCorrection.getLsbD_flip _ hk,
        if_neg hk'] at hf
      exact hf rfl
    · rw [Flipped, flipBit, byteAt_set_ne _ hq'] at hf
      exact absurd rfl hf
  refine ⟨List.length_set, fun q' hq' => byteAt_set_ne _ ?_, fun _ _ _ q₁ q₂ k₁ k₂ _ _ h₁ h₂ => ?_⟩
  · rintro rfl
    exact hq' pos check hcw hq
  · obtain ⟨rfl, rfl⟩ := hflip q₁ k₁ h₁
    obtain ⟨rfl, rfl⟩ := hflip q₂ k₂ h₂
    exact ⟨rfl, rfl⟩

/-- The directory of the builder with one protected region. -/
theorem oneRegion_entries {rs : List Region} (h : Container 64 oneRegion oneRegionBytes rs) :
    rs = [⟨1, 2, 18, 1, 0⟩, ⟨0x8001, 8, 19, 1, 1⟩] := by
  have hcount : rs.length = 2 := (List.Forall₂.length_eq h.describes).symm
  apply List.ext_getElem?
  intro i
  rw [← h.readable.regionAt (v := ⟨oneRegionBytes, 2, false, false⟩) rfl hcount.symm]
  match i with
  | 0 => decide +kernel
  | 1 => decide +kernel
  | i + 2 => exact if_pos (Nat.le_add_left 2 i)

/-- Its only codeword. -/
theorem oneRegion_codeword {rs : List Region} (h : Container 64 oneRegion oneRegionBytes rs)
    (pos check : ℕ) :
    Codeword (Readable.view oneRegionBytes rs) pos check ↔ pos = 144 ∧ check = 152 := by
  have hread := h.readable
  obtain rfl := oneRegion_entries h
  have hplane : (Readable.view oneRegionBytes [⟨1, 2, 18, 1, 0⟩, ⟨0x8001, 8, 19, 1, 1⟩]).planeOf 1 =
      some ⟨0x8001, 8, 19, 1, 1⟩ := (hread.planeOf rfl rfl 1).trans (by decide)
  constructor
  · rintro ⟨i, e, p, w, he, hprot, hp, hw, rfl, rfl⟩
    rw [hread.regionAt rfl rfl] at he
    match i with
    | 0 =>
      cases he
      obtain rfl := Option.some.inj (hplane.symm.trans hp)
      have hw : 8 * w < 8 := hw
      obtain rfl : w = 0 := by omega
      exact ⟨rfl, rfl⟩
    | 1 =>
      cases he
      exact absurd hprot (by decide)
    | i + 2 => cases he
  · rintro ⟨rfl, rfl⟩
    exact ⟨0, _, _, 0, hread.regionAt rfl rfl 0, by decide, hplane, by decide, rfl, rfl⟩

theorem oneRegion_length : oneRegionBytes.length = 160 := by decide +kernel

/-- A flipped bit of the payload is repaired. -/
theorem oneRegion_scrubbed : ∃ report,
    scrub 64 (flipBit oneRegionBytes 144 0) = (oneRegionBytes, some report) ∧
      report.uncorrectable = 0 := by
  obtain ⟨rs, hc⟩ := finish_container oneRegion_reachable oneRegion_finish
  have hcw := oneRegion_codeword hc
  have hd := bitDamage_flipBit ((hcw 144 152).mpr ⟨rfl, rfl⟩) (q := 144) (k := 0)
    (.inl ⟨by decide, by decide⟩) (oneRegion_length ▸ by decide) (by decide)
  obtain ⟨report, hscrub, hcount, -⟩ := (scrub_restores_iff oneRegion_reachable oneRegion_finish
    (by decide) hc.readable.parse hd).mpr fun pos check h => by
      obtain ⟨rfl, rfl⟩ := (hcw pos check).mp h
      exact byteAt_set_ne _ (by decide)
  exact ⟨report, hscrub, hcount⟩

/-- **A flipped bit of a check byte stays.** -/
theorem oneRegion_unscrubbed : oneRegion.finish 64 = .ok oneRegionBytes ∧
    (oneRegion.regions.any fun r => r.eccKind.isSome) ∧
    (∃ v, WireView.parse 64 oneRegionBytes = .ok v ∧
      BitDamage v (flipBit oneRegionBytes 152 0)) ∧
    (scrub 64 (flipBit oneRegionBytes 152 0)).1 ≠ oneRegionBytes := by
  obtain ⟨rs, hc⟩ := finish_container oneRegion_reachable oneRegion_finish
  have hcw := (oneRegion_codeword hc 144 152).mpr ⟨rfl, rfl⟩
  have hd := bitDamage_flipBit hcw (q := 152) (k := 0) (.inr rfl)
    (oneRegion_length ▸ by decide) (by decide)
  refine ⟨oneRegion_finish, by decide, ⟨_, hc.readable.parse, hd⟩, ?_⟩
  decide +kernel

end KeleusmaWire
