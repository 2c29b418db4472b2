import Keleusma.Control.Blocks

/-!
# Control transfers in a tree of blocks

In a well-nested chunk control moves within the blocks: it enters a block only through the
instruction that opens it, and leaves a loop only through a `Break` or `BreakIf` that lands behind
the `EndLoop` of that loop (`Region.transferOk`). The positions inside a block are those behind
its opening delimiter up to its closing one.
-/

namespace Keleusma

/-- A block: an opening delimiter, and the delimiter that closes it. -/
def Block (ops : List Op) (p e : ℕ) : Prop :=
  (∃ t, ops[p]? = some (.ifOp t) ∨ ops[p]? = some (.loop t)) ∧ closingAt ops (p + 1) = some e

/-- A loop. -/
def LoopBlock (ops : List Op) (p e : ℕ) : Prop :=
  (∃ t, ops[p]? = some (.loop t)) ∧ closingAt ops (p + 1) = some e

/-- The positions inside a block. -/
def Inside (p e q : ℕ) : Prop := p < q ∧ q ≤ e

/-- A transfer from one position to another respects the blocks. -/
structure TransferOk (ops : List Op) (q q' : ℕ) : Prop where
  /-- A block is entered only through its opening delimiter. -/
  enters : ∀ p e, Block ops p e → ¬Inside p e q → Inside p e q' → q = p
  /-- A loop is left only through a break, which lands behind its closing delimiter. -/
  leaves : ∀ p e, LoopBlock ops p e → Inside p e q → ¬Inside p e q' →
    (∃ t, ops[q]? = some (.break t) ∨ ops[q]? = some (.breakIf t)) ∧ q' = e + 1

variable {ops : List Op} {x : Option ℕ} {lo hi : ℕ}

theorem LoopBlock.block {p e : ℕ} (h : LoopBlock ops p e) : Block ops p e :=
  ⟨h.1.imp fun _ h => .inr h, h.2⟩

/-- A block opens at no other instruction. -/
theorem Block.not_leaf {p e : ℕ} {op : Op} (h : Block ops p e) (hop : ops[p]? = some op)
    (hne : ∀ t, op ≠ .ifOp t ∧ op ≠ .loop t) : False := by
  obtain ⟨t, ht | ht⟩ := h.1
  · exact (hne t).1 (Option.some.inj (hop.symm.trans ht))
  · exact (hne t).2 (Option.some.inj (hop.symm.trans ht))

/-- A block ends at its closing delimiter. -/
theorem Block.end {p e : ℕ} (h : Block ops p e) :
    p < e ∧ (ops[e]? = some .endIf ∨ ∃ t, ops[e]? = some (.endLoop t)) := by
  obtain ⟨hle, hop⟩ := closing_delimiter h.2
  rw [List.getElem?_drop, Nat.add_sub_cancel' hle] at hop
  exact ⟨hle, hop⟩

/-- The position behind `Stream` lies in the blocks `Stream` lies in. -/
theorem Block.inside_stream {p e s : ℕ} (h : Block ops p e) (hs : ops[s]? = some .stream) :
    Inside p e (s + 1) ↔ Inside p e s := by
  have hp : p ≠ s := by
    rintro rfl
    exact h.not_leaf hs fun t => ⟨by rintro ⟨⟩, by rintro ⟨⟩⟩
  have he : s ≠ e := by
    rintro rfl
    rcases h.end.2 with he | ⟨t, he⟩ <;> cases hs.symm.trans he
  unfold Inside
  omega

theorem next_leaf {op : Op} {ip ip' : ℕ} (hd : op.isDelimiter = false) (h : ip' ∈ op.next ip) :
    ip' = ip + 1 := by
  cases op <;>
    first | exact List.mem_singleton.mp h | exact absurd h List.not_mem_nil | cases hd

/-- Control stays within a region, or leaves it through a break. -/
theorem Region.next_mem (h : Region Eq ops x lo hi) {q q' : ℕ} {op : Op} (hlo : lo ≤ q)
    (hhi : q < hi) (hop : ops[q]? = some op) (hn : q' ∈ op.next q) :
    lo ≤ q' ∧ q' ≤ hi ∨ x = some q' ∧ (op = .break q' ∨ op = .breakIf q') := by
  induction h with
  | nil => omega
  | @leaf _ lo hi o ho hd rest ih =>
    have := rest.le
    rcases Nat.eq_or_lt_of_le hlo with rfl | hlt
    · cases ho.symm.trans hop
      have := next_leaf hd hn
      omega
    · rcases ih hlt hhi with h | h
      · exact .inl ⟨by omega, h.2⟩
      · exact .inr h
  | @«break» k lo hi ho rest ih =>
    have := rest.le
    rcases Nat.eq_or_lt_of_le hlo with rfl | hlt
    · cases ho.symm.trans hop
      obtain rfl := List.mem_singleton.mp hn
      exact .inr ⟨rfl, .inl rfl⟩
    · rcases ih hlt hhi with h | h
      · exact .inl ⟨by omega, h.2⟩
      · exact .inr h
  | @breakIf k lo hi ho rest ih =>
    have := rest.le
    rcases Nat.eq_or_lt_of_le hlo with rfl | hlt
    · cases ho.symm.trans hop
      rcases List.mem_cons.mp hn with rfl | hn
      · exact .inl ⟨by omega, by omega⟩
      · obtain rfl := List.mem_singleton.mp hn
        exact .inr ⟨rfl, .inr rfl⟩
    · rcases ih hlt hhi with h | h
      · exact .inl ⟨by omega, h.2⟩
      · exact .inr h
  | @ifThen _ lo e hi hif body hend rest ihb ihr =>
    have := body.le
    have := rest.le
    rcases Nat.eq_or_lt_of_le hlo with rfl | hlt
    · cases hif.symm.trans hop
      rcases List.mem_cons.mp hn with rfl | hn
      · exact .inl ⟨by omega, by omega⟩
      · obtain rfl := List.mem_singleton.mp hn
        exact .inl ⟨by omega, by omega⟩
    rcases lt_trichotomy q e with hlt' | rfl | hgt
    · rcases ihb hlt hlt' with h | h
      · exact .inl ⟨by omega, by omega⟩
      · exact .inr h
    · cases hend.symm.trans hop
      obtain rfl := List.mem_singleton.mp hn
      exact .inl ⟨by omega, by omega⟩
    · rcases ihr hgt hhi with h | h
      · exact .inl ⟨by omega, h.2⟩
      · exact .inr h
  | @ifElse _ lo m t e hi hif thenBody helse hown elseBody hend rest iht ihe ihr =>
    have := thenBody.le
    have := elseBody.le
    have := rest.le
    rcases Nat.eq_or_lt_of_le hlo with rfl | hlt
    · cases hif.symm.trans hop
      rcases List.mem_cons.mp hn with rfl | hn
      · exact .inl ⟨by omega, by omega⟩
      · obtain rfl := List.mem_singleton.mp hn
        exact .inl ⟨by omega, by omega⟩
    rcases lt_trichotomy q m with hlt' | rfl | hgt
    · rcases iht hlt hlt' with h | h
      · exact .inl ⟨by omega, by omega⟩
      · exact .inr h
    · cases helse.symm.trans hop
      obtain rfl := List.mem_singleton.mp hn
      exact .inl ⟨by omega, by omega⟩
    rcases lt_trichotomy q e with hlt' | rfl | hgt'
    · rcases ihe hgt hlt' with h | h
      · exact .inl ⟨by omega, by omega⟩
      · exact .inr h
    · cases hend.symm.trans hop
      obtain rfl := List.mem_singleton.mp hn
      exact .inl ⟨by omega, by omega⟩
    · rcases ihr hgt' hhi with h | h
      · exact .inl ⟨by omega, h.2⟩
      · exact .inr h
  | @loop _ lo e hi hloop body hend rest ihb ihr =>
    have := body.le
    have := rest.le
    rcases Nat.eq_or_lt_of_le hlo with rfl | hlt
    · cases hloop.symm.trans hop
      obtain rfl := List.mem_singleton.mp hn
      exact .inl ⟨by omega, by omega⟩
    rcases lt_trichotomy q e with hlt' | rfl | hgt
    · rcases ihb hlt hlt' with h | h
      · exact .inl ⟨by omega, by omega⟩
      · obtain rfl := Option.some.inj h.1
        exact .inl ⟨by omega, by omega⟩
    · cases hend.symm.trans hop
      obtain rfl := List.mem_singleton.mp hn
      exact .inl ⟨by omega, by omega⟩
    · rcases ihr hgt hhi with h | h
      · exact .inl ⟨by omega, h.2⟩
      · exact .inr h

/-- A break leaves for a position behind everything before the exit. -/
theorem Region.next_range (h : Region Eq ops x lo hi) {bound : ℕ} (hx : ∀ k, x = some k → bound < k)
    {q q' : ℕ} {op : Op} (hlo : lo ≤ q) (hhi : q < hi) (hop : ops[q]? = some op)
    (hn : q' ∈ op.next q) : lo ≤ q' ∧ q' ≤ hi ∨ bound < q' :=
  (h.next_mem hlo hhi hop hn).imp_right fun h => hx _ h.1

/-- A block that opens in a region closes in it. -/
theorem Region.block_lt (h : Region Eq ops x lo hi) {p e : ℕ} (hlo : lo ≤ p) (hhi : p < hi)
    (hb : Block ops p e) : p < e ∧ e < hi := by
  induction h with
  | nil => omega
  | @leaf _ lo hi o ho hd rest ih =>
    rcases Nat.eq_or_lt_of_le hlo with rfl | hlt
    · exact (hb.not_leaf ho fun t => by constructor <;> rintro rfl <;> cases hd).elim
    · exact ih hlt hhi
  | «break» ho rest ih =>
    rcases Nat.eq_or_lt_of_le hlo with rfl | hlt
    · exact (hb.not_leaf ho fun t => ⟨by rintro ⟨⟩, by rintro ⟨⟩⟩).elim
    · exact ih hlt hhi
  | breakIf ho rest ih =>
    rcases Nat.eq_or_lt_of_le hlo with rfl | hlt
    · exact (hb.not_leaf ho fun t => ⟨by rintro ⟨⟩, by rintro ⟨⟩⟩).elim
    · exact ih hlt hhi
  | @ifThen _ lo m hi hif body hend rest ihb ihr =>
    have := body.le
    have := rest.le
    rcases Nat.eq_or_lt_of_le hlo with rfl | hlt
    · obtain rfl := Option.some.inj (hb.2.symm.trans (body.closingAt_endIf hend))
      omega
    rcases lt_trichotomy p m with hlt' | rfl | hgt
    · have := ihb hlt hlt'
      omega
    · exact (hb.not_leaf hend fun t => ⟨by rintro ⟨⟩, by rintro ⟨⟩⟩).elim
    · exact ihr hgt hhi
  | @ifElse _ lo m t m' hi hif thenBody helse hown elseBody hend rest iht ihe ihr =>
    have := thenBody.le
    have := elseBody.le
    have := rest.le
    rcases Nat.eq_or_lt_of_le hlo with rfl | hlt
    · have hc : closingAt ops (lo + 1) = some m' := by
        rw [closingAt, thenBody.closing_eq, closing_skip helse (.inl rfl)]
        exact elseBody.closingAt_endIf hend
      obtain rfl := Option.some.inj (hb.2.symm.trans hc)
      omega
    rcases lt_trichotomy p m with hlt' | rfl | hgt
    · have := iht hlt hlt'
      omega
    · exact (hb.not_leaf helse fun t => ⟨by rintro ⟨⟩, by rintro ⟨⟩⟩).elim
    rcases lt_trichotomy p m' with hlt' | rfl | hgt'
    · have := ihe hgt hlt'
      omega
    · exact (hb.not_leaf hend fun t => ⟨by rintro ⟨⟩, by rintro ⟨⟩⟩).elim
    · exact ihr hgt' hhi
  | @loop _ lo m hi hloop body hend rest ihb ihr =>
    have := body.le
    have := rest.le
    rcases Nat.eq_or_lt_of_le hlo with rfl | hlt
    · have hc : closingAt ops (lo + 1) = some m := by
        rw [closingAt, body.closing_eq, closing_zero hend (.inr rfl)]
      obtain rfl := Option.some.inj (hb.2.symm.trans hc)
      omega
    rcases lt_trichotomy p m with hlt' | rfl | hgt
    · have := ihb hlt hlt'
      omega
    · exact (hb.not_leaf hend fun t => ⟨by rintro ⟨⟩, by rintro ⟨⟩⟩).elim
    · exact ihr hgt hhi

/-- A transfer between positions of a region respects the blocks of the region. -/
theorem Region.transfer (h : Region Eq ops x lo hi) (hx : ∀ k, x = some k → hi < k)
    {p e q q' : ℕ} {op : Op} (hp : lo ≤ p) (hp' : p < hi) (hb : Block ops p e) (hq : lo ≤ q)
    (hq' : q < hi) (hop : ops[q]? = some op) (hn : q' ∈ op.next q) :
    (¬Inside p e q → Inside p e q' → q = p) ∧
      (LoopBlock ops p e → Inside p e q → ¬Inside p e q' →
        (∃ t, op = .break t ∨ op = .breakIf t) ∧ q' = e + 1) := by
  unfold Inside
  induction h with
  | nil => omega
  | @leaf x lo hi o ho hd rest ih =>
    rcases Nat.eq_or_lt_of_le hp with rfl | hlp
    · exact (hb.not_leaf ho fun t => by constructor <;> rintro rfl <;> cases hd).elim
    rcases Nat.eq_or_lt_of_le hq with rfl | hlq
    · cases ho.symm.trans hop
      have := next_leaf hd hn
      exact ⟨by omega, by omega⟩
    · exact ih hx hlp hp' hlq hq'
  | @«break» k lo hi ho rest ih =>
    have := rest.block_lt (p := p) (e := e)
    rcases Nat.eq_or_lt_of_le hp with rfl | hlp
    · exact (hb.not_leaf ho fun t => ⟨by rintro ⟨⟩, by rintro ⟨⟩⟩).elim
    have := rest.block_lt hlp hp' hb
    rcases Nat.eq_or_lt_of_le hq with rfl | hlq
    · cases ho.symm.trans hop
      obtain rfl := List.mem_singleton.mp hn
      have := hx _ rfl
      exact ⟨by omega, by omega⟩
    · exact ih hx hlp hp' hlq hq'
  | @breakIf k lo hi ho rest ih =>
    rcases Nat.eq_or_lt_of_le hp with rfl | hlp
    · exact (hb.not_leaf ho fun t => ⟨by rintro ⟨⟩, by rintro ⟨⟩⟩).elim
    have := rest.block_lt hlp hp' hb
    rcases Nat.eq_or_lt_of_le hq with rfl | hlq
    · cases ho.symm.trans hop
      have := hx _ rfl
      have : q' = lo + 1 ∨ q' = k := by simpa [Op.next] using hn
      exact ⟨by omega, by omega⟩
    · exact ih hx hlp hp' hlq hq'
  | @ifThen x lo m hi hif body hend rest ihb ihr =>
    have hle := rest.le
    have hlo : q = lo → q' = lo + 1 ∨ q' = m := by
      rintro rfl
      cases hif.symm.trans hop
      simpa [Op.next] using hn
    have hbody : lo + 1 ≤ q → q < m → lo + 1 ≤ q' ∧ q' ≤ m ∨ hi < q' := fun h₁ h₂ =>
      body.next_range hx h₁ h₂ hop hn
    have hm : q = m → q' = m + 1 := by
      rintro rfl
      cases hend.symm.trans hop
      simpa [Op.next] using hn
    have hrest : m + 1 ≤ q → m + 1 ≤ q' := fun h₁ => by
      have := rest.next_range hx h₁ hq' hop hn
      omega
    rcases Nat.eq_or_lt_of_le hp with rfl | hlp
    · obtain rfl := Option.some.inj (hb.2.symm.trans (body.closingAt_endIf hend))
      refine ⟨by omega, fun hl => ?_⟩
      obtain ⟨t, ht⟩ := hl.1
      cases hif.symm.trans ht
    rcases lt_trichotomy p m with hlt | rfl | hgt
    · have := body.block_lt hlp hlt hb
      by_cases hqb : lo + 1 ≤ q ∧ q < m
      · exact ihb (fun k hk => by have := hx k hk; omega) hlp hlt hqb.1 hqb.2
      · exact ⟨by omega, by omega⟩
    · exact (hb.not_leaf hend fun t => ⟨by rintro ⟨⟩, by rintro ⟨⟩⟩).elim
    · have := rest.block_lt hgt hp' hb
      by_cases hqr : m + 1 ≤ q
      · exact ihr hx hgt hp' hqr hq'
      · exact ⟨by omega, by omega⟩
  | @ifElse x lo m t m' hi hif thenBody helse hown elseBody hend rest iht ihe ihr =>
    have hle := rest.le
    have hle' := elseBody.le
    have hlo : q = lo → q' = lo + 1 ∨ q' = m + 1 := by
      rintro rfl
      cases hif.symm.trans hop
      simpa [Op.next] using hn
    have hthen : lo + 1 ≤ q → q < m → lo + 1 ≤ q' ∧ q' ≤ m ∨ hi < q' := fun h₁ h₂ =>
      thenBody.next_range hx h₁ h₂ hop hn
    have hm : q = m → q' = m' := by
      rintro rfl
      cases helse.symm.trans hop
      exact (List.mem_singleton.mp hn).trans hown
    have helseBody : m + 1 ≤ q → q < m' → m + 1 ≤ q' ∧ q' ≤ m' ∨ hi < q' := fun h₁ h₂ =>
      elseBody.next_range hx h₁ h₂ hop hn
    have hm' : q = m' → q' = m' + 1 := by
      rintro rfl
      cases hend.symm.trans hop
      simpa [Op.next] using hn
    have hrest : m' + 1 ≤ q → m' + 1 ≤ q' := fun h₁ => by
      have := rest.next_range hx h₁ hq' hop hn
      omega
    rcases Nat.eq_or_lt_of_le hp with rfl | hlp
    · have hc : closingAt ops (lo + 1) = some m' := by
        rw [closingAt, thenBody.closing_eq, closing_skip helse (.inl rfl)]
        exact elseBody.closingAt_endIf hend
      obtain rfl := Option.some.inj (hb.2.symm.trans hc)
      refine ⟨by omega, fun hl => ?_⟩
      obtain ⟨t, ht⟩ := hl.1
      cases hif.symm.trans ht
    rcases lt_trichotomy p m with hlt | rfl | hgt
    · have := thenBody.block_lt hlp hlt hb
      by_cases hqb : lo + 1 ≤ q ∧ q < m
      · exact iht (fun k hk => by have := hx k hk; omega) hlp hlt hqb.1 hqb.2
      · exact ⟨by omega, by omega⟩
    · exact (hb.not_leaf helse fun t => ⟨by rintro ⟨⟩, by rintro ⟨⟩⟩).elim
    rcases lt_trichotomy p m' with hlt | rfl | hgt'
    · have := elseBody.block_lt hgt hlt hb
      by_cases hqb : m + 1 ≤ q ∧ q < m'
      · exact ihe (fun k hk => by have := hx k hk; omega) hgt hlt hqb.1 hqb.2
      · exact ⟨by omega, by omega⟩
    · exact (hb.not_leaf hend fun t => ⟨by rintro ⟨⟩, by rintro ⟨⟩⟩).elim
    · have := rest.block_lt hgt' hp' hb
      by_cases hqr : m' + 1 ≤ q
      · exact ihr hx hgt' hp' hqr hq'
      · exact ⟨by omega, by omega⟩
  | @loop x lo m hi hloop body hend rest ihb ihr =>
    have hle := rest.le
    have hlo : q = lo → q' = lo + 1 := by
      rintro rfl
      cases hloop.symm.trans hop
      simpa [Op.next] using hn
    have hbody : lo + 1 ≤ q → q < m → lo + 1 ≤ q' ∧ q' ≤ m ∨
        q' = m + 1 ∧ ∃ t, op = .break t ∨ op = .breakIf t := fun h₁ h₂ =>
      (body.next_mem h₁ h₂ hop hn).imp_right fun h => ⟨(Option.some.inj h.1).symm, q', h.2⟩
    have hm : q = m → q' = lo + 1 := by
      rintro rfl
      cases hend.symm.trans hop
      simpa [Op.next] using hn
    have hrest : m + 1 ≤ q → m + 1 ≤ q' := fun h₁ => by
      have := rest.next_range hx h₁ hq' hop hn
      omega
    rcases Nat.eq_or_lt_of_le hp with rfl | hlp
    · have hc : closingAt ops (lo + 1) = some m := by
        rw [closingAt, body.closing_eq, closing_zero hend (.inr rfl)]
      obtain rfl := Option.some.inj (hb.2.symm.trans hc)
      refine ⟨by omega, fun _ hin hout => ?_⟩
      rcases Nat.eq_or_lt_of_le hin.2 with rfl | hlt
      · have := hm rfl
        omega
      · rcases hbody hin.1 hlt with h | h
        · omega
        · exact ⟨h.2, h.1⟩
    rcases lt_trichotomy p m with hlt | rfl | hgt
    · have := body.block_lt hlp hlt hb
      by_cases hqb : lo + 1 ≤ q ∧ q < m
      · exact ihb (fun k hk => by cases hk; omega) hlp hlt hqb.1 hqb.2
      · exact ⟨by omega, by omega⟩
    · exact (hb.not_leaf hend fun t => ⟨by rintro ⟨⟩, by rintro ⟨⟩⟩).elim
    · have := rest.block_lt hgt hp' hb
      by_cases hqr : m + 1 ≤ q
      · exact ihr hx hgt hp' hqr hq'
      · exact ⟨by omega, by omega⟩

/-- **In a tree of blocks every transfer that an instruction names respects the blocks.** -/
theorem WellNested.transferOk (h : WellNested ops) {q q' : ℕ} {op : Op}
    (hop : ops[q]? = some op) (hn : q' ∈ op.next q) : TransferOk ops q q' := by
  have hq := (List.getElem?_eq_some_iff.mp hop).1
  have hblock : ∀ {p e}, Block ops p e → p < ops.length := fun hb => by
    obtain ⟨t, ht | ht⟩ := hb.1 <;> exact (List.getElem?_eq_some_iff.mp ht).1
  refine ⟨fun p e hb => ?_, fun p e hl hin hout => ?_⟩
  · exact (Region.transfer h nofun (Nat.zero_le _) (hblock hb) hb (Nat.zero_le _) hq hop hn).1
  · have ht := (Region.transfer h nofun (Nat.zero_le _) (hblock hl.block) hl.block (Nat.zero_le _) hq
      hop hn).2 hl hin hout
    rw [hop]
    exact ⟨ht.1.imp fun t => Or.imp (congrArg some) (congrArg some), ht.2⟩

end Keleusma
