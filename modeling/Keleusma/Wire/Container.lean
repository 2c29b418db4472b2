import Keleusma.Wire.Placement

/-!
# Containers

What `finish` returns for a reachable builder: a readable container whose copies agree and whose
directory describes the regions of the builder and their planes (`finish_container`).
-/

namespace KeleusmaWire

open Overflow

/-- **A container** of a builder: it is readable, its copies agree, and the entries of its directory
describe what the builder emits, in this order and without overlap. -/
structure Container (usizeBits : ℕ) (b : WireBuilder) (bytes : List Byte) (rs : List Region) :
    Prop where
  readable : Readable usizeBits bytes rs
  prologue : Copied bytes 0 (prologueOf (countOf rs))
  directory : Copied bytes directoryOffset (rs.flatMap entryBytes)
  describes : List.Forall₂ (Describes bytes) b.emits rs
  sorted : rs.Pairwise fun r r' => r.stop ≤ r'.start

variable {bits : ℕ} {b : WireBuilder} {bytes : List Byte}

theorem checked_eq_ok {α : Type} {x : Option α} {a : α} : checked x = .ok a ↔ x = some a := by
  cases x with
  | none => simp [checked]
  | some a' => simp [checked]

/-- The three copies of the prologue and of the directory. -/
def headerOf (rs : List Region) (tail : List Byte) : List Byte :=
  let prologue := prologueOf (countOf rs)
  let dir := rs.flatMap entryBytes
  prologue ++ (prologue ++ (prologue ++ (dir ++ (dir ++ (dir ++ tail)))))

theorem length_headerOf (rs : List Region) (tail : List Byte) :
    (headerOf rs tail).length = 48 * rs.length + 48 + tail.length := by
  simp only [headerOf, List.length_append, length_prologueOf, length_entries]
  omega

theorem headerOf_append (rs : List Region) (tail : List Byte) :
    headerOf rs [] ++ tail = headerOf rs tail := by
  simp only [headerOf, List.append_assoc, List.nil_append]

theorem writeOut_eq {es : List Emit} {rs : List Region} (h : rs.length = es.length) :
    writeOut es rs = headerOf rs [] ++ payload es := by
  have hlen : (headerOf rs []).length % 8 = 0 := by
    rw [length_headerOf, List.length_nil]
    omega
  have hout : headerOf rs [] = prologueOf (BitVec.ofNat 16 es.length) ++
      (prologueOf (BitVec.ofNat 16 es.length) ++ (prologueOf (BitVec.ofNat 16 es.length) ++
        (rs.flatMap entryBytes ++ (rs.flatMap entryBytes ++ rs.flatMap entryBytes)))) := by
    rw [headerOf, countOf, h, List.append_nil]
  rw [writeOut, ← hout, padOut_of_whole hlen, foldl_padOut hlen]

/-- The steps of `finish`. -/
theorem finish_ok (hn : b.emits.length ≤ maxRegions) (h : b.finish bits = .ok bytes) :
    ∃ offs stop rs, offsets bits (6 * b.emits.length + 6) b.emits = some (offs, stop) ∧
      directory b.emits offs = .ok rs ∧ 8 * stop < 2 ^ bits ∧
      bytes = headerOf rs [] ++ payload b.emits := by
  rw [WireBuilder.finish] at h
  obtain ⟨header, hheader, h₁⟩ := bind_eq_ok.mp h
  obtain ⟨headerWords, hwords, h₂⟩ := bind_eq_ok.mp h₁
  obtain ⟨⟨offs, stop⟩, hoffs, h₃⟩ := bind_eq_ok.mp h₂
  obtain ⟨total, htotal, h₄⟩ := bind_eq_ok.mp h₃
  rw [checked_eq_ok] at hheader hwords hoffs htotal
  obtain ⟨-, rfl⟩ := headerBytes_eq_some.mp hheader
  rw [wordsFor, Option.map_eq_some_iff] at hwords
  obtain ⟨_, hadd, rfl⟩ := hwords
  obtain ⟨-, rfl⟩ := checkedAdd_eq_some.mp hadd
  obtain ⟨htotal, -⟩ := checkedMul_eq_some.mp htotal
  have hwords : (48 * b.emits.length + 48 + (word - 1)) / word = 6 * b.emits.length + 6 := by
    rw [word]
    omega
  have hmax : b.emits.length < 2 ^ 16 := lt_of_le_of_lt hn (by decide)
  rw [hwords] at hoffs
  rw [if_neg (not_le.mpr hmax)] at h₄
  obtain ⟨rs, hdir, h₅⟩ := bind_eq_ok.mp h₄
  cases h₅
  refine ⟨offs, stop, rs, hoffs, hdir, ?_, writeOut_eq (length_directory hoffs hdir)⟩
  rw [Nat.mul_comm]
  exact htotal

/-- Payloads that fit have offsets and entries. -/
theorem offsets_fit {c : ℕ} {es : List Emit} (hfit : 8 * (c + (es.map Emit.words).sum) + 7 < 2 ^ bits)
    (hlt : c + (es.map Emit.words).sum < 2 ^ 32) : ∃ offs rs,
      offsets bits c es = some (offs, c + (es.map Emit.words).sum) ∧
        directory es offs = .ok rs := by
  induction es generalizing c with
  | nil => exact ⟨[], [], rfl, rfl⟩
  | cons e es ih =>
    rw [List.map_cons, List.sum_cons] at hfit hlt
    rw [← Nat.add_assoc] at hfit hlt
    obtain ⟨offs, rs, hoffs, hdir⟩ := ih hfit hlt
    have hlength : e.bytes.length ≤ 8 * e.words := by
      rw [Emit.words]
      omega
    have hwords : wordsFor bits e.bytes.length = some e.words := by
      rw [wordsFor, checkedAdd, word, if_pos (by omega)]
      rfl
    have hnext : checkedAdd bits c e.words = some (c + e.words) :=
      checkedAdd_eq_some.mpr ⟨by omega, rfl⟩
    refine ⟨(c, e.words) :: offs,
      ⟨e.kind, e.flags, BitVec.ofNat 32 c, BitVec.ofNat 32 e.words, e.covers⟩ :: rs, ?_, ?_⟩
    · simp only [offsets, hwords, hnext, hoffs, bind, Option.bind, pure, List.map_cons,
        List.sum_cons, Nat.add_assoc]
    · rw [directory, u32TryFrom, if_pos (by omega), u32TryFrom, if_pos (by omega)]
      exact bind_eq_ok.mpr ⟨_, rfl, bind_eq_ok.mpr ⟨_, rfl, bind_eq_ok.mpr ⟨rs, hdir, rfl⟩⟩⟩

/-- **`finish` returns an artifact** when everything fits. -/
theorem finish_fits (hcount : b.emits.length < 2 ^ 16)
    (hfit : 8 * (6 * b.emits.length + 6 + (b.emits.map Emit.words).sum) + 7 < 2 ^ bits)
    (hlt : 6 * b.emits.length + 6 + (b.emits.map Emit.words).sum < 2 ^ 32) :
    ∃ bytes, b.finish bits = .ok bytes := by
  obtain ⟨offs, rs, hoffs, hdir⟩ := offsets_fit hfit hlt
  have hheader : headerBytes bits b.emits.length = some (48 * b.emits.length + 48) :=
    headerBytes_eq_some.mpr ⟨by omega, rfl⟩
  have hwords : wordsFor bits (48 * b.emits.length + 48) = some (6 * b.emits.length + 6) := by
    rw [wordsFor, checkedAdd, word, if_pos (by omega), Option.map_some, Option.some.injEq]
    omega
  have htotal : checkedMul bits (6 * b.emits.length + 6 + (b.emits.map Emit.words).sum) word =
      some ((6 * b.emits.length + 6 + (b.emits.map Emit.words).sum) * word) :=
    checkedMul_eq_some.mpr ⟨by rw [word]; omega, rfl⟩
  refine ⟨writeOut b.emits rs, ?_⟩
  rw [WireBuilder.finish]
  refine bind_eq_ok.mpr ⟨_, checked_eq_ok.mpr hheader, bind_eq_ok.mpr ⟨_, checked_eq_ok.mpr hwords,
    bind_eq_ok.mpr ⟨_, checked_eq_ok.mpr hoffs, bind_eq_ok.mpr ⟨_, checked_eq_ok.mpr htotal, ?_⟩⟩⟩⟩
  rw [if_neg (not_le.mpr hcount)]
  exact bind_eq_ok.mpr ⟨rs, hdir, rfl⟩

/-- **What `finish` returns for a reachable builder is a container.** -/
theorem finish_container (hb : b.Reachable) (h : b.finish bits = .ok bytes) :
    ∃ rs, Container bits b bytes rs := by
  have hvalid := hb.valid
  have hlen : b.emits.length = b.kinds.length := by
    rw [← b.map_kind_emits, List.length_map]
  obtain ⟨offs, stop, rs, hoffs, hdir, hstop, rfl⟩ := finish_ok (hlen ▸ hvalid.count) h
  have hcount := length_directory hoffs hdir
  have hpre : (headerOf rs []).length = 8 * (6 * b.emits.length + 6) := by
    rw [length_headerOf, List.length_nil, hcount]
    omega
  obtain ⟨hdesc, hinside, hsorted, hend⟩ := layout hpre hoffs hdir
  have hprologue : Copied (headerOf rs [] ++ payload b.emits) 0 (prologueOf (countOf rs)) := by
    rw [headerOf_append]
    exact copied [] (prologueOf (countOf rs)) _
  have hdirectory : Copied (headerOf rs [] ++ payload b.emits) directoryOffset
      (rs.flatMap entryBytes) := by
    have hcopied := copied (prologueOf (countOf rs) ++ (prologueOf (countOf rs) ++
      prologueOf (countOf rs))) (rs.flatMap entryBytes) (payload b.emits)
    have hsame : headerOf rs [] ++ payload b.emits = (prologueOf (countOf rs) ++
        (prologueOf (countOf rs) ++ prologueOf (countOf rs))) ++ (rs.flatMap entryBytes ++
          (rs.flatMap entryBytes ++ (rs.flatMap entryBytes ++ payload b.emits))) := by
      simp only [headerOf, List.append_assoc, List.nil_append]
    rw [hsame]
    exact hcopied
  have hkinds : rs.map Region.kind = b.kinds := by
    rw [← b.map_kind_emits, map_kind_eq hdesc]
  refine ⟨rs, ⟨?_, ?_, fun i hi => ?_, fun i hi => ?_, ?_, ?_, fun r hr => ?_⟩, hprologue,
    hdirectory, hdesc, hsorted⟩
  · rw [hcount, hlen]
    exact hvalid.count
  · rw [hend]
    exact hstop
  · exact hprologue.voted hi
  · have hi' : i < (rs.flatMap entryBytes).length := by rwa [length_entries]
    have := hdirectory.voted hi'
    rwa [length_entries] at this
  · rw [hkinds]
    exact hvalid.kinds
  · rw [List.length_append, length_headerOf]
    omega
  · obtain ⟨h₁, h₂⟩ := hinside r hr
    rw [hend, hcount]
    exact ⟨by omega, h₂⟩

end KeleusmaWire
