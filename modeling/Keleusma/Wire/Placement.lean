import Keleusma.Wire.Readable

/-!
# Where the encoder puts the payloads

`finish` lays out the payloads one after the other. Every entry of the directory that it writes
describes its payload (`Describes`), the payloads do not overlap, and the kinds of a reachable
builder are distinct, so what `finish` returns is a readable container (`finish_container`).
-/

namespace KeleusmaWire

open Overflow

/-! ## Padding -/

theorem length_padOut (l : List Byte) : (padOut l).length = 8 * ((l.length + 7) / 8) := by
  rw [padOut, List.length_append, List.length_replicate, word]
  omega

theorem padOut_append {out : List Byte} (h : out.length % 8 = 0) (l : List Byte) :
    padOut (out ++ l) = out ++ padOut l := by
  have hlen : (out ++ l).length % word = l.length % word := by
    rw [List.length_append, word]
    omega
  rw [padOut, padOut, hlen, List.append_assoc]

theorem padOut_of_whole {l : List Byte} (h : l.length % 8 = 0) : padOut l = l := by
  rw [padOut, word, h]
  exact List.append_nil l

/-- The payloads, each padded to a whole number of words. -/
def payload (es : List Emit) : List Byte := es.flatMap fun e => padOut e.bytes

theorem foldl_padOut {out : List Byte} (h : out.length % 8 = 0) (es : List Emit) :
    es.foldl (fun out e => padOut (out ++ e.bytes)) out = out ++ payload es := by
  induction es generalizing out with
  | nil => exact (List.append_nil out).symm
  | cons e es ih =>
    have hlen : (out ++ padOut e.bytes).length % 8 = 0 := by
      rw [List.length_append, length_padOut]
      omega
    rw [List.foldl_cons, padOut_append h, ih hlen, List.append_assoc]
    rfl

/-! ## Offsets -/

/-- The number of words that a payload takes. -/
def Emit.words (e : Emit) : ℕ := (e.bytes.length + 7) / 8

theorem offsets_cons {bits c stop : ℕ} {e : Emit} {es : List Emit} {offs : List (ℕ × ℕ)}
    (h : offsets bits c (e :: es) = some (offs, stop)) : ∃ offs', offs = (c, e.words) :: offs' ∧
      offsets bits (c + e.words) es = some (offs', stop) := by
  simp only [offsets, wordsFor, bind, Option.bind_eq_some_iff, Option.map_eq_some_iff,
    checkedAdd_eq_some, pure, Option.some.injEq, Prod.mk.injEq] at h
  obtain ⟨_, ⟨_, ⟨-, rfl⟩, rfl⟩, _, ⟨-, rfl⟩, ⟨offs', stop'⟩, hrest, rfl, rfl⟩ := h
  exact ⟨offs', rfl, hrest⟩

theorem u32TryFrom_ok {n : ℕ} {v : BitVec 32} (h : u32TryFrom n = .ok v) : v.toNat = n := by
  rw [u32TryFrom] at h
  split_ifs at h with hlt
  cases h
  exact Nat.mod_eq_of_lt hlt

theorem bind_eq_ok {α β : Type} {x : Except WireError α} {f : α → Except WireError β} {b : β} :
    x >>= f = .ok b ↔ ∃ a, x = .ok a ∧ f a = .ok b := by
  cases x with
  | error e => simp [bind, Except.bind]
  | ok a => simp [bind, Except.bind]

theorem directory_cons {e : Emit} {es : List Emit} {off len : ℕ} {offs : List (ℕ × ℕ)}
    {rs : List Region} (h : directory (e :: es) ((off, len) :: offs) = .ok rs) :
    ∃ wordOffset wordLength rest, wordOffset.toNat = off ∧ wordLength.toNat = len ∧
      rs = ⟨e.kind, e.flags, wordOffset, wordLength, e.covers⟩ :: rest ∧
      directory es offs = .ok rest := by
  rw [directory] at h
  obtain ⟨wordOffset, hoff, h⟩ := bind_eq_ok.mp h
  obtain ⟨wordLength, hlen, h⟩ := bind_eq_ok.mp h
  obtain ⟨rest, hrest, h⟩ := bind_eq_ok.mp h
  cases h
  exact ⟨wordOffset, wordLength, rest, u32TryFrom_ok hoff, u32TryFrom_ok hlen, rfl, hrest⟩

theorem length_directory {bits c stop : ℕ} {es : List Emit} {offs : List (ℕ × ℕ)}
    {rs : List Region} (hoffs : offsets bits c es = some (offs, stop))
    (hdir : directory es offs = .ok rs) : rs.length = es.length := by
  induction es generalizing c offs rs with
  | nil =>
    cases hoffs
    cases hdir
    rfl
  | cons e es ih =>
    obtain ⟨offs, rfl, htail⟩ := offsets_cons hoffs
    obtain ⟨_, _, rest, -, -, rfl, hrest⟩ := directory_cons hdir
    rw [List.length_cons, List.length_cons, ih htail hrest]

/-! ## The layout -/

/-- The entry of the directory describes the payload. -/
structure Describes (bytes : List Byte) (e : Emit) (r : Region) : Prop where
  kind : r.kind = e.kind
  flags : r.flags = e.flags
  covers : r.covers = e.covers
  length : r.length = 8 * e.words
  payload : slice bytes r.start r.length = padOut e.bytes

theorem map_kind_eq {bytes : List Byte} {es : List Emit} {rs : List Region}
    (h : List.Forall₂ (Describes bytes) es rs) : rs.map Region.kind = es.map Emit.kind := by
  induction h with
  | nil => rfl
  | cons hd _ ih => rw [List.map_cons, List.map_cons, ih, hd.kind]

/-- **The layout of the payloads**: every entry describes its payload, the payloads follow each
other, and the last one ends the artifact. -/
theorem layout {bits c stop : ℕ} {es : List Emit} {offs : List (ℕ × ℕ)} {rs : List Region}
    {pre : List Byte} (hpre : pre.length = 8 * c) (hoffs : offsets bits c es = some (offs, stop))
    (hdir : directory es offs = .ok rs) :
    List.Forall₂ (Describes (pre ++ payload es)) es rs ∧
      (∀ r ∈ rs, 8 * c ≤ r.start ∧ r.stop ≤ 8 * stop) ∧
      rs.Pairwise (fun r r' => r.stop ≤ r'.start) ∧ (pre ++ payload es).length = 8 * stop := by
  induction es generalizing c offs rs pre with
  | nil =>
    cases hoffs
    cases hdir
    exact ⟨.nil, nofun, .nil, by rw [payload, List.flatMap_nil, List.append_nil, hpre]⟩
  | cons e es ih =>
    obtain ⟨offs, rfl, htail⟩ := offsets_cons hoffs
    obtain ⟨wordOffset, wordLength, rest, hoff, hlen, rfl, hrest⟩ := directory_cons hdir
    have hbytes : pre ++ payload (e :: es) = pre ++ padOut e.bytes ++ payload es := by
      rw [List.append_assoc]
      rfl
    have hpadded : (padOut e.bytes).length = 8 * e.words := length_padOut _
    have hpre' : (pre ++ padOut e.bytes).length = 8 * (c + e.words) := by
      rw [List.length_append, hpre, hpadded, Nat.mul_add]
    obtain ⟨hdesc, hinside, hsorted, hstop⟩ := ih hpre' htail hrest
    have hlast : 8 * (c + e.words) ≤ 8 * stop := by
      rw [← hstop, List.length_append, hpre']
      exact Nat.le_add_right _ _
    rw [hbytes]
    refine ⟨.cons ⟨rfl, rfl, rfl, ?_, ?_⟩ hdesc, fun r hr => ?_, .cons (fun r hr => ?_) hsorted,
      hstop⟩
    · rw [Region.length, hlen]
    · rw [Region.start, Region.length, hoff, hlen, ← hpre, ← hpadded, List.append_assoc]
      exact slice_append _ _ _
    · rcases List.mem_cons.mp hr with rfl | hr
      · rw [Region.stop, Region.start, Region.length, hoff, hlen]
        omega
      · obtain ⟨h₁, h₂⟩ := hinside r hr
        omega
    · rw [Region.stop, Region.start, Region.length, hoff, hlen, ← Nat.mul_add]
      exact (hinside r hr).1

/-! ## Copies -/

/-- The bytes have three copies of a list, one after the other. -/
def Copied (bytes : List Byte) (start : ℕ) (c : List Byte) : Prop :=
  ∀ i < c.length, byteAt bytes (start + i) = byteAt c i ∧
    byteAt bytes (start + c.length + i) = byteAt c i ∧
    byteAt bytes (start + 2 * c.length + i) = byteAt c i

theorem byteAt_append_right (pre l : List Byte) (i : ℕ) :
    byteAt (pre ++ l) (pre.length + i) = byteAt l i := by
  rw [byteAt, List.getD_append_right _ _ _ _ (Nat.le_add_right _ _), Nat.add_sub_cancel_left]
  rfl

theorem byteAt_append_left {l post : List Byte} {i : ℕ} (h : i < l.length) :
    byteAt (l ++ post) i = byteAt l i := List.getD_append _ _ _ _ h

theorem copied (pre c post : List Byte) :
    Copied (pre ++ (c ++ (c ++ (c ++ post)))) pre.length c := by
  intro i hi
  refine ⟨?_, ?_, ?_⟩
  · rw [byteAt_append_right, byteAt_append_left hi]
  · rw [Nat.add_assoc, byteAt_append_right, byteAt_append_right, byteAt_append_left hi]
  · rw [Nat.two_mul, Nat.add_assoc, byteAt_append_right, Nat.add_assoc, byteAt_append_right,
      byteAt_append_right, byteAt_append_left hi]

theorem Copied.voted {bytes c : List Byte} {start : ℕ} (h : Copied bytes start c) {i : ℕ}
    (hi : i < c.length) : voted bytes start c.length i = byteAt c i := by
  obtain ⟨h₁, h₂, h₃⟩ := h i hi
  rw [KeleusmaWire.voted, maj3, h₁, h₂, h₃, ErrorCorrection.majority_self]

theorem Copied.agrees {bytes c : List Byte} {start : ℕ} (h : Copied bytes start c) :
    (List.range c.length).any (disagrees bytes start c.length) = false := by
  refine List.any_eq_false.mpr fun i hi => ?_
  have hi := List.mem_range.mp hi
  obtain ⟨h₁, h₂, h₃⟩ := h i hi
  simp [disagrees, h.voted hi, h₁, h₂, h₃]

/-! ## Reachable builders -/

/-- The kinds that a region takes up. -/
def RegionBuf.kinds (r : RegionBuf) : List (BitVec 16) := r.kind :: r.eccKind.toList

namespace WireBuilder

variable {b : WireBuilder}

/-- The kinds of the regions, planes included. -/
def kinds (b : WireBuilder) : List (BitVec 16) := b.regions.flatMap RegionBuf.kinds

/-- **A valid builder**: no kind is taken twice, the ceiling holds, and the flags of a region say
whether it has a plane. -/
structure Valid (b : WireBuilder) : Prop where
  kinds : b.kinds.Nodup
  count : b.kinds.length ≤ maxRegions
  flags : ∀ r ∈ b.regions, r.flags &&& flagIsEcc = 0 ∧
    (r.flags &&& flagEccPresent ≠ 0 ↔ r.eccKind.isSome)

theorem map_kind_emits (b : WireBuilder) : b.emits.map Emit.kind = b.kinds := by
  rw [emits, kinds, List.map_flatMap]
  congr 1
  funext r
  rw [RegionBuf.emit, RegionBuf.kinds]
  cases r.eccKind
  · rfl
  · rfl

theorem length_kinds (b : WireBuilder) : b.kinds.length = b.emitCount := by
  obtain ⟨rs⟩ := b
  induction rs with
  | nil => rfl
  | cons r rs ih =>
    have hcons : (WireBuilder.mk (r :: rs)).kinds = r.kinds ++ (WireBuilder.mk rs).kinds := rfl
    rw [hcons, List.length_append, ih, emitCount, emitCount, RegionBuf.kinds, List.length_cons,
      List.length_cons, List.countP_cons]
    cases r.eccKind
    · simp
      omega
    · simp
      omega

theorem kindInUse_iff {kind : BitVec 16} : b.kindInUse kind ↔ kind ∈ b.kinds := by
  rw [kindInUse, List.any_eq_true, kinds, List.mem_flatMap]
  refine exists_congr fun r => and_congr_right fun _ => ?_
  rw [RegionBuf.kinds, List.mem_cons, Option.mem_toList, Bool.or_eq_true, beq_iff_eq, beq_iff_eq,
    eq_comm]

/-- A list with an element replaced. -/
theorem set_split {α : Type} {l : List α} {i : ℕ} {x : α} (h : l[i]? = some x) :
    ∃ pre post, l = pre ++ x :: post ∧ ∀ y, l.set i y = pre ++ y :: post := by
  induction l generalizing i with
  | nil => simp at h
  | cons z l ih =>
    cases i with
    | zero =>
      obtain rfl := Option.some.inj h
      exact ⟨[], l, rfl, fun y => rfl⟩
    | succ i =>
      obtain ⟨pre, post, hl, hset⟩ := ih h
      refine ⟨z :: pre, post, congrArg (z :: ·) hl, fun y => ?_⟩
      exact congrArg (z :: ·) (hset y)

theorem Valid.region (h : b.Valid) {kind flags : BitVec 16} (hecc : flags &&& flagIsEcc = 0)
    (hpresent : flags &&& flagEccPresent = 0) : (b.region kind flags).2.Valid := by
  rw [WireBuilder.region]
  split_ifs with huse hmax
  · exact h
  · exact h
  · have hkinds : (WireBuilder.mk (b.regions ++ [⟨kind, flags, [], none⟩])).kinds =
        b.kinds ++ [kind] := List.flatMap_append
    refine ⟨?_, ?_, fun r hr => ?_⟩
    · rw [hkinds]
      exact h.kinds.append (List.nodup_singleton kind)
        (List.disjoint_singleton.mpr fun hmem => huse (kindInUse_iff.mpr hmem))
    · rw [hkinds, List.length_append, length_kinds]
      exact not_le.mp hmax
    · rcases List.mem_append.mp hr with hr | hr
      · exact h.flags r hr
      · obtain rfl := List.mem_singleton.mp hr
        exact ⟨hecc, by simp [hpresent]⟩

/-- Replacing a region by one that takes up the same kinds. -/
theorem Valid.set (h : b.Valid) {id : ℕ} {r r' : RegionBuf} (hr : b.regions[id]? = some r)
    (hkinds : r'.kinds = r.kinds) (hflags : r'.flags = r.flags) (hecc : r'.eccKind = r.eccKind) :
    (WireBuilder.mk (b.regions.set id r')).Valid := by
  obtain ⟨pre, post, hl, hset⟩ := set_split hr
  have hsame : (WireBuilder.mk (b.regions.set id r')).kinds = b.kinds := by
    rw [WireBuilder.kinds, WireBuilder.kinds, hset, hl, List.flatMap_append, List.flatMap_cons, hkinds,
      List.flatMap_append, List.flatMap_cons]
  refine ⟨hsame ▸ h.kinds, hsame ▸ h.count, fun s hs => ?_⟩
  rw [hset] at hs
  rcases List.mem_append.mp hs with hs | hs
  · exact h.flags s (by rw [hl]; exact List.mem_append_left _ hs)
  · rcases List.mem_cons.mp hs with rfl | hs
    · rw [hflags, hecc]
      exact h.flags r (List.mem_of_getElem? hr)
    · exact h.flags s (by rw [hl]; exact List.mem_append_right _ (List.mem_cons_of_mem _ hs))

/-- The flags of a region that gets a plane. -/
theorem flags_protected {flags : BitVec 16} (h : flags &&& flagIsEcc = 0) :
    (flags ||| flagEccPresent) &&& flagIsEcc = 0 ∧
      (flags ||| flagEccPresent) &&& flagEccPresent ≠ 0 := by
  refine ⟨?_, fun h0 => ?_⟩
  · rw [BitVec.and_or_distrib_right, h]
    decide
  · have hbit := congrArg (BitVec.getLsbD · 1) h0
    rw [BitVec.getLsbD_and, BitVec.getLsbD_or] at hbit
    have hset : flagEccPresent.getLsbD 1 = true := by decide
    rw [hset, Bool.or_true] at hbit
    cases hbit

theorem Valid.protect (h : b.Valid) (id : ℕ) (eccKind : BitVec 16) :
    (b.protect id eccKind).2.Valid := by
  rw [WireBuilder.protect]
  by_cases huse : b.kindInUse eccKind
  · rw [if_pos huse]
    exact h
  · rw [if_neg huse]
    split
    · exact h
    next r hr =>
      split_ifs with hsome hmax
      · exact h
      · exact h
      · obtain ⟨pre, post, hl, hset⟩ := set_split hr
        have hnone : r.eccKind = none := Option.not_isSome_iff_eq_none.mp hsome
        -- The plane takes up one more kind.
        have hperm : (WireBuilder.mk (b.regions.set id { r with
            eccKind := some eccKind, flags := r.flags ||| flagEccPresent })).kinds.Perm
              (eccKind :: b.kinds) := by
          have hold : b.kinds = (pre.flatMap RegionBuf.kinds ++ [r.kind]) ++
              post.flatMap RegionBuf.kinds := by
            rw [WireBuilder.kinds, hl, List.flatMap_append, List.flatMap_cons, RegionBuf.kinds, hnone,
              List.append_assoc]
            rfl
          have hnew : ∀ flags, (WireBuilder.mk (pre ++ ⟨r.kind, flags, r.bytes, some eccKind⟩ ::
              post)).kinds = (pre.flatMap RegionBuf.kinds ++ [r.kind]) ++
                eccKind :: post.flatMap RegionBuf.kinds := by
            intro flags
            rw [WireBuilder.kinds, List.flatMap_append, List.flatMap_cons, RegionBuf.kinds, List.append_assoc]
            rfl
          rw [hset, hnew, hold]
          exact List.perm_middle
        refine ⟨?_, ?_, fun s hs => ?_⟩
        · exact hperm.nodup_iff.mpr
            (List.nodup_cons.mpr ⟨fun hmem => huse (kindInUse_iff.mpr hmem), h.kinds⟩)
        · rw [hperm.length_eq, List.length_cons, length_kinds]
          exact not_lt.mp hmax
        · dsimp only at hs
          rw [hset] at hs
          rcases List.mem_append.mp hs with hs | hs
          · exact h.flags s (by rw [hl]; exact List.mem_append_left _ hs)
          · rcases List.mem_cons.mp hs with rfl | hs
            · obtain ⟨hecc, hpresent⟩ := flags_protected (h.flags r (List.mem_of_getElem? hr)).1
              exact ⟨hecc, iff_of_true hpresent rfl⟩
            · exact h.flags s (by rw [hl]; exact List.mem_append_right _ (List.mem_cons_of_mem _ hs))

theorem Valid.protectEach (is : List ℕ) : ∀ {b : WireBuilder}, b.Valid → (b.protectEach is).2.Valid := by
  induction is with
  | nil => exact fun h => h
  | cons i is ih =>
    intro b h
    rw [WireBuilder.protectEach]
    split
    · exact h
    next r hr =>
      split_ifs with hsome
      · exact ih h
      · have hprotect := h.protect i (planeKindFor r.kind)
        rcases hp : b.protect i (planeKindFor r.kind) with ⟨_ | ⟨⟩, b'⟩
        · rw [hp] at hprotect
          exact hprotect
        · rw [hp] at hprotect
          exact ih hprotect

theorem Valid.push (h : b.Valid) (id : ℕ) (bytes : List Byte) : (b.push id bytes).2.Valid := by
  rw [WireBuilder.push]
  split
  · exact h
  next r hr => exact h.set hr rfl rfl rfl

/-- **Every reachable builder is valid.** -/
theorem Reachable.valid (h : b.Reachable) : b.Valid := by
  induction h with
  | new => exact ⟨.nil, Nat.zero_le _, nofun⟩
  | region _ hecc hpresent ih => exact ih.region hecc hpresent
  | protect _ ih => exact ih.protect _ _
  | protectAll _ ih => exact Valid.protectEach _ ih
  | push _ ih => exact ih.push _ _
  | pushRecord _ ih => exact ih.push _ _

end WireBuilder

end KeleusmaWire
