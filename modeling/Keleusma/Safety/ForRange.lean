import Keleusma.Safety.Activations
import Keleusma.Safety.CheckedWidths
import Keleusma.Safety.Operands
import Keleusma.Safety.StraightLine
import Keleusma.Verify.ForRange

/-!
# Counted loops along runs

A loop that comes to its entry with the words that the verifier takes it to begin with
(`EntersWithin`) makes no more passes than the verifier reads off it: an instruction keeps the bound,
wherever it is in the loop (`Bounded.step`). A loop that the compiler has emitted begins with these
words (`CompiledLoop.enters`).
-/

namespace Keleusma

variable {F : Type} {env : Env F} {c : Chunk} {l e var limit : ℕ} {a b s : ℤ} {es fs : List ℕ}
  {k k' n p q : ℕ}

/-! ## Counting passes -/

/-- After every entry of a loop control has been at a position at most so often. -/
def AtMost (l p n : ℕ) (es : List ℕ) : Prop :=
  ∀ seg, seg <:+: es → l ∉ seg → seg.count p ≤ n

/-- After the last entry of a loop control has been at a position at most so often. -/
def Since (l p k : ℕ) (es : List ℕ) : Prop :=
  ∀ seg, seg <:+ es → l ∉ seg → seg.count p ≤ k

theorem AtMost.since (h : AtMost l p n es) : Since l p n es :=
  fun seg hseg => h seg hseg.isInfix

theorem AtMost.of_suffix (h : AtMost l p n es) (hs : fs <:+ es) : AtMost l p n fs :=
  fun seg hseg => h seg (hseg.trans hs.isInfix)

theorem AtMost.nil : AtMost l p n [] := by
  intro seg hseg _
  rw [List.infix_nil.mp hseg, List.count_nil]
  exact Nat.zero_le n

theorem AtMost.snoc (h : AtMost l p n es) (hs : Since l p n (es ++ [q])) :
    AtMost l p n (es ++ [q]) := by
  intro seg hseg hl
  rcases List.infix_concat_iff.mp hseg with hsuf | hin
  · exact hs seg hsuf hl
  · exact h seg hin hl

theorem Since.of_suffix (h : Since l p k es) (hs : fs <:+ es) : Since l p k fs :=
  fun seg hseg => h seg (hseg.trans hs)

theorem Since.mono (h : Since l p k es) (hk : k ≤ k') : Since l p k' es :=
  fun seg hseg hl => (h seg hseg hl).trans hk

/-- One step more comes to the position at most once more. -/
theorem Since.pass (h : Since l p k es) : Since l p (k + 1) (es ++ [q]) := by
  intro seg hseg hl
  rcases List.suffix_concat_iff.mp hseg with rfl | ⟨t, rfl, ht⟩
  · exact Nat.zero_le _
  · rw [List.count_append]
    refine Nat.add_le_add (h t ht fun hmem => hl (List.mem_append_left _ hmem)) ?_
    exact List.count_le_length

theorem Since.snoc (h : Since l p k es) (hq : q ≠ p) : Since l p k (es ++ [q]) := by
  intro seg hseg hl
  rcases List.suffix_concat_iff.mp hseg with rfl | ⟨t, rfl, ht⟩
  · exact Nat.zero_le _
  · rw [List.count_append, List.count_singleton, if_neg (by simpa using hq), Nat.add_zero]
    exact h t ht fun hmem => hl (List.mem_append_left _ hmem)

theorem AtMost.elsewhere (h : AtMost l p n es) (hq : q ≠ p) : AtMost l p n (es ++ [q]) :=
  h.snoc (h.since.snoc hq)

/-- An entry begins to count anew. -/
theorem Since.enter : Since l p 0 (es ++ [l]) := by
  intro seg hseg hl
  rcases List.suffix_concat_iff.mp hseg with rfl | ⟨t, rfl, ht⟩
  · exact Nat.zero_le _
  · exact absurd (List.mem_append_right _ (List.mem_singleton_self l)) hl

/-! ## What the code around a loop computes -/

section Code

variable {idx base : ℕ} {st stack : List (Value F)} {v w : ℤ}

theorem getElem?_append_of_some {V : Type} {xs ys : List V} {i : ℕ} {x : V} (h : xs[i]? = some x) :
    (xs ++ ys)[i]? = some x := by
  rw [List.getElem?_append_left (List.getElem?_eq_some_iff.mp h).1, h]

theorem getElem?_of_append {V : Type} {xs ys : List V} {i : ℕ} {x y : V} (h : xs[i]? = some x)
    (h' : (xs ++ ys)[i]? = some y) : x = y :=
  Option.some.inj ((getElem?_append_of_some h).symm.trans h')

theorem chunkConst_int (hc : env.chunk? idx = some c) {i : ℕ} {m : ℤ}
    (hm : c.constants[i]? = some (.int m)) :
    env.chunkConst idx i = .int (Word.wrap env.runtimeBitsLog2 m) := by
  have hconst : env.chunkConstValue idx i = some (.int m) := by
    rw [Env.chunkConstValue, hc]
    exact hm
  unfold Env.chunkConst
  rw [hconst]
  rfl

variable (base) in
/-- The assignments directly before a position are straight-line code, and leave the local the
constant. -/
theorem SetBefore.ran (hc : env.chunk? idx = some c) {slot ip : ℕ} {m : ℤ}
    (h : SetBefore c slot m ip) (hend : c.ops[ip]? ≠ some .endIf) :
    ∃ j < ip, StraightCode c.ops j ip ∧ ∀ st st', Ran env idx base j st ip st' →
      st'[base + slot]? = some (.int (Word.wrap env.runtimeBitsLog2 m)) := by
  have hops := ops_of_chunk? hc
  have hpair {ip i other : ℕ} (hconst : c.ops[ip]? = some (.const i))
      (hset : c.ops[ip + 1]? = some (.setLocal other)) (hend : c.ops[ip + 2]? ≠ some .endIf) :
      StraightCode c.ops ip (ip + 2) := by
    intro p hp hlt
    obtain rfl | rfl : p = ip ∨ p = ip + 1 := by omega
    · refine ⟨⟨_, hconst, rfl⟩, ?_⟩
      rw [hset]
      rintro ⟨⟩
    · exact ⟨⟨_, hset, rfl⟩, hend⟩
  -- what the two instructions make of a stack
  have hlast {ip i other j : ℕ} {st st' : List (Value F)} (hconst : c.ops[ip]? = some (.const i))
      (hset : c.ops[ip + 1]? = some (.setLocal other)) (hj : j ≤ ip)
      (hran : Ran env idx base j st (ip + 2) st') :
      ∃ st₁, Ran env idx base j st ip st₁ ∧ base + other < st₁.length ∧
        st' = st₁.set (base + other) (env.chunkConst idx i) := by
    obtain ⟨st₂, hran₂, hq⟩ := hran.last (by omega) (hops ▸ hset)
    obtain ⟨st₁, hran₁, hq'⟩ := hran₂.last hj (hops ▸ hconst)
    cases hq'
    generalize hst : st₁ ++ [env.chunkConst idx i] = st₂ at hq
    cases hq with
    | setLocal w hlt =>
      obtain ⟨rfl, hw⟩ := List.append_inj' hst rfl
      obtain rfl := List.singleton_inj.mp hw
      exact ⟨st₁, hran₁, hlt, rfl⟩
  induction h with
  | @here ip i hconst hset hn =>
    refine ⟨ip, by omega, hpair hconst hset hend, fun st st' hran => ?_⟩
    obtain ⟨st₁, -, hlt, rfl⟩ := hlast hconst hset le_rfl hran
    rw [List.getElem?_set_self hlt, chunkConst_int hc hn]
  | @earlier ip i other hconst hset hne h ih =>
    obtain ⟨j, hj, hcode, hvalue⟩ := ih (by rw [hconst]; rintro ⟨⟩)
    refine ⟨j, by omega, fun p hp hlt => ?_, fun st st' hran => ?_⟩
    · rcases Nat.lt_or_ge p ip with hlt' | hge
      · exact hcode p hp hlt'
      · exact hpair hconst hset hend p hge hlt
    · obtain ⟨st₁, hran₁, hlt, rfl⟩ := hlast hconst hset hj.le hran
      rw [List.getElem?_set_ne (by omega)]
      exact hvalue st st₁ hran₁

/-- The test compares the variable with the limit. -/
theorem ForRange.compared (hr : ForRange c l e var limit s) (hops : env.ops idx = c.ops)
    (h : Ran env idx base (l + 1) st (l + 4) stack)
    (hvar : stack[base + var]? = some (.int v)) (hlimit : stack[base + limit]? = some (.int w)) :
    stack.getLast? = some (.bool (compare v w).isGE) := by
  obtain ⟨st₂, h, hq₃⟩ := h.last (by omega) (hops ▸ hr.test.compares)
  obtain ⟨st₁, h, hq₂⟩ := h.last (by omega) (hops ▸ hr.readsLimit)
  obtain ⟨st₀, h, hq₁⟩ := h.last (by omega) (hops ▸ hr.readsVar)
  cases hq₁ with
  | @getLocal _ _ x hx =>
  cases hq₂ with
  | @getLocal _ _ y hy =>
  generalize hst : st₀ ++ [x] ++ [y] = st₂ at hq₃
  cases hq₃ with
  | @cmpGe st₃ v' w' r hcmp =>
    rw [List.append_assoc] at hst
    obtain ⟨rfl, hxy⟩ := List.append_inj' hst rfl
    obtain ⟨rfl, hy'⟩ := List.cons.inj hxy
    obtain rfl := List.singleton_inj.mp hy'
    obtain rfl := getElem?_of_append hx hvar
    rw [List.getLast?_concat]
    -- the limit is not where the variable has been pushed: a truth value is there now
    rcases Nat.lt_or_ge (base + limit) st₀.length with hlt | hge
    · rw [List.getElem?_append_left hlt] at hy hlimit
      exact congrArg some (hcmp v w rfl (Option.some.inj (hy.symm.trans hlimit)))
    · have hat : base + limit = st₀.length := by
        have := (List.getElem?_eq_some_iff.mp hlimit).1
        rw [List.length_append, List.length_singleton] at this
        omega
      rw [hat, List.getElem?_concat_length] at hy hlimit
      obtain rfl := Option.some.inj hy
      rw [hcmp v v rfl rfl] at hlimit
      cases hlimit

/-- The body ends with a step of the variable. -/
theorem ForRange.stepped (hr : ForRange c l e var limit s) (hc : env.chunk? idx = some c)
    (hw : env.module.wordBitsLog2 ≤ env.runtimeBitsLog2) (hw' : env.runtimeBitsLog2 ≤ 6)
    (hstep : Word.InRange env.module.wordBitsLog2 s)
    (hnext : Word.InRange env.module.wordBitsLog2 (v + s))
    (h : Ran env idx base e st (e + 4) stack)
    (hvar : stack[base + var]? = some (.int v)) : stack.getLast? = some (.int (v + s)) := by
  have hops := ops_of_chunk? hc
  obtain ⟨i, hi, hn⟩ := hr.tailStep
  obtain ⟨st₃, h₃, hq₄⟩ := h.last (by omega) (hops ▸ hr.tailDrops)
  obtain ⟨st₂, h₂, hq₃⟩ := h₃.last (by omega) (hops ▸ hr.tailAdds)
  obtain ⟨st₁, h₁, hq₂⟩ := h₂.last (by omega) (hops ▸ hi)
  obtain ⟨st₀, h₀, hq₁⟩ := h₁.last le_rfl (hops ▸ hr.tailReads)
  cases hq₁ with
  | @getLocal _ _ x hx =>
  cases hq₂ with
  | const =>
  rw [chunkConst_int hc hn, Word.wrap_of_inRange hw hstep] at hq₃
  generalize hst : st₀ ++ [x] ++ [Value.int s] = st₂ at hq₃
  cases hq₃ with
  | @checkedAdd st' v' w' low high flag hadd =>
    rw [List.append_assoc] at hst
    obtain ⟨rfl, hxy⟩ := List.append_inj' hst rfl
    obtain ⟨rfl, hy⟩ := List.cons.inj hxy
    obtain rfl := List.singleton_inj.mp hy
    generalize htwo : (2 : ℕ) = two at hq₄
    generalize hst' : st₀ ++ [low, high, flag] = st₃ at hq₄
    cases hq₄ with
    | popN _ vs =>
      have hsplit : st₀ ++ [low] ++ [high, flag] = stack ++ vs := by
        rw [List.append_assoc]
        exact hst'
      obtain ⟨rfl, -⟩ := List.append_inj' hsplit htwo
      obtain rfl := getElem?_of_append hx hvar
      rw [List.getLast?_concat, hadd v s rfl rfl, checkedArithOutputs_low hw hw',
        Word.wrap_of_inRange le_rfl hnext]

end Code

/-! ## A frame in the loop -/

/-- The words that a counted loop begins with when its chunk's frame has the given base: the
variable has got at least as far as the verifier takes it to be, the limit is no further than the
verifier takes it to be, and from below the limit a step leads to no word that the module lacks. -/
structure BeginsWith (env : Env F) (c : Chunk) (l base : ℕ) (stack : List (Value F)) (v w : ℤ) :
    Prop where
  var : ∀ slot, c.ops[l + 1]? = some (.getLocal slot) → stack[base + slot]? = some (.int v) ∧
    ∀ a, traceConstSetLocal c l slot = some a → a ≤ v
  limit : ∀ slot, c.ops[l + 2]? = some (.getLocal slot) → stack[base + slot]? = some (.int w) ∧
    ∀ b, traceConstSetLocal c l slot = some b → w ≤ b
  word : Word.InRange env.module.wordBitsLog2 v
  steps : ∀ m i s, c.ops[l]? = some (.loop (m + 1)) → c.ops[m - 4]? = some (.const i) →
    c.constants[i]? = some (.int s) →
    Word.InRange env.module.wordBitsLog2 s ∧ Word.InRange env.module.wordBitsLog2 (w + s - 1)

/-- Control comes to a loop with such words. -/
def EntersWithin (env : Env F) (c : Chunk) (l base : ℕ) (stack : List (Value F)) : Prop :=
  ∃ v w, BeginsWith env c l base stack v w

/-- The limit of a loop, within what the verifier takes it to be and a step away from the greatest
word. -/
structure LimitFits (env : Env F) (b s w : ℤ) : Prop where
  le : w ≤ b
  step : Word.InRange env.module.wordBitsLog2 s
  room : Word.InRange env.module.wordBitsLog2 (w + s - 1)

/-- The positions behind the test, where a pass has been counted and the variable not yet
stepped. -/
def InBody (l e ip : ℕ) : Prop := l + loopHeader ≤ ip ∧ ip < e + 5

/-- A frame within the loop: its variable has gone at least as far as there have been passes, and
has not come to the limit in the body. -/
structure Counting (env : Env F) (l e var limit : ℕ) (a w : ℤ) (base : ℕ) (es : List ℕ) (ip : ℕ)
    (stack : List (Value F)) (k : ℕ) (v : ℤ) : Prop where
  since : Since l (l + loopHeader) k (es ++ [ip])
  limit_eq : stack[base + limit]? = some (.int w)
  var_eq : stack[base + var]? = some (.int v)
  word : Word.min env.module.wordBitsLog2 ≤ v
  body : InBody l e ip →
    ∃ j, k = j + 1 ∧ Since l (e + 5) j (es ++ [ip]) ∧ a + j ≤ v ∧ v < w
  turn : ¬InBody l e ip → Since l (e + 5) k (es ++ [ip]) ∧ a + k ≤ v

/-- The record of a frame keeps the bound of the loop. -/
structure Bounded (env : Env F) (l e var limit : ℕ) (a b s : ℤ) (base : ℕ) (es : List ℕ) (ip : ℕ)
    (stack : List (Value F)) : Prop where
  passes : AtMost l (l + loopHeader) (b - a).toNat (es ++ [ip])
  turns : AtMost l (e + 5) (b - a).toNat (es ++ [ip])
  inLoop : l < ip → ip ≤ e + 5 →
    ∃ w k v, LimitFits env b s w ∧ Counting env l e var limit a w base es ip stack k v

/-- An instruction moves a frame from one position to another and keeps its locals. -/
structure StepsTo (env : Env F) (f : CallFrame) (op : Op) (ip' : ℕ) (stack stack' : List (Value F)) :
    Prop where
  op_at : (env.ops f.chunkIdx)[f.ip]? = some op
  next : ip' ∈ op.next f.ip
  keeps : ∀ s < env.chunkLocalCount f.chunkIdx, op ≠ .setLocal s →
    stack'[f.base + s]? = stack[f.base + s]?
  sets : ∀ s, op = .setLocal s → Quick env f.chunkIdx f.base op stack stack'
  breaks : ∀ t, op = .breakIf t → ip' ≠ t → stack.getLast? = some (.bool false)

theorem Bounded.congr {base ip : ℕ} {stack stack' : List (Value F)}
    (h : Bounded env l e var limit a b s base es ip stack)
    (hvar : ∀ v, stack[base + var]? = some v → stack'[base + var]? = some v)
    (hlimit : ∀ v, stack[base + limit]? = some v → stack'[base + limit]? = some v) :
    Bounded env l e var limit a b s base es ip stack' where
  passes := h.passes
  turns := h.turns
  inLoop hlo hhi := by
    obtain ⟨w, k, v, hfits, hk⟩ := h.inLoop hlo hhi
    exact ⟨w, k, v, hfits, hk.since, hlimit _ hk.limit_eq, hvar _ hk.var_eq, hk.word, hk.body,
      hk.turn⟩

section Step

variable {f : CallFrame} {op : Op} {ip' : ℕ} {stack stack' : List (Value F)} {v w : ℤ}
  (hr : ForRange c l e var limit s) (hc : env.chunk? f.chunkIdx = some c)
  (hw : WellNested c.ops)
include hr hc hw

/-- The test lets control through while the variable is below the limit, and counts a pass. -/
theorem Counting.pass (h : Counting env l e var limit a w f.base es f.ip stack k v)
    (hip : f.ip = l + 4) (htop : stack.getLast? = some (.bool false))
    (hran : StraightRan env stack f)
    (hvar : stack'[f.base + var]? = some (.int v)) (hlimit : stack'[f.base + limit]? = some (.int w)) :
    a + k ≤ v ∧ v < w ∧
      Counting env l e var limit a w f.base (es ++ [f.ip]) (l + loopHeader) stack' (k + 1) v := by
  have hops := ops_of_chunk? hc
  have hcode : StraightCode (env.ops f.chunkIdx) (l + 1) f.ip := by
    rw [hops, hip]
    intro p hp hlt
    obtain rfl | rfl | rfl : p = l + 1 ∨ p = l + 2 ∨ p = l + 3 := by omega
    · refine ⟨⟨_, hr.readsVar, rfl⟩, ?_⟩
      rw [hr.readsLimit]
      rintro ⟨⟩
    · refine ⟨⟨_, hr.readsLimit, rfl⟩, ?_⟩
      rw [hr.test.compares]
      rintro ⟨⟩
    · refine ⟨⟨_, hr.test.compares, rfl⟩, ?_⟩
      rw [(hr.body hw).1]
      rintro ⟨⟩
  obtain ⟨st, hst⟩ := hran (l + 1) (by omega) hcode
  rw [hip] at hst
  have hcmp := hr.compared hops hst h.var_eq h.limit_eq
  rw [htop] at hcmp
  have hlt : v < w := by
    cases hord : compare v w with
    | lt => exact compare_lt_iff_lt.mp hord
    | eq | gt =>
      rw [hord] at hcmp
      cases hcmp
  have hroom := hr.room
  obtain ⟨hturn, hle⟩ := h.turn (by unfold InBody loopHeader; omega)
  refine ⟨hle, hlt, h.since.pass, hlimit, hvar, h.word, fun _ => ⟨k, rfl, ?_, hle, hlt⟩,
    fun hnot => absurd ⟨le_rfl, by omega⟩ hnot⟩
  exact hturn.snoc (by unfold loopHeader at hroom ⊢; omega)

omit hc hw in
/-- Control goes from the entry of the loop to its test. -/
theorem BeginsWith.counting (h : BeginsWith env c l f.base stack v w)
    (ha : traceConstSetLocal c l var = some a) (hb : traceConstSetLocal c l limit = some b)
    (hvar : stack'[f.base + var]? = stack[f.base + var]?)
    (hlimit : stack'[f.base + limit]? = stack[f.base + limit]?) :
    LimitFits env b s w ∧
      Counting env l e var limit a w f.base (es ++ [l]) (l + 1) stack' 0 v := by
  obtain ⟨hv, hav⟩ := h.var var hr.readsVar
  obtain ⟨hlim, hwb⟩ := h.limit limit hr.readsLimit
  obtain ⟨i, hi, hs⟩ := hr.tailStep
  obtain ⟨hstep, hroom⟩ := h.steps (e + 5) i s hr.opens hi hs
  have hout : ¬InBody l e (l + 1) := by
    rintro ⟨hle, -⟩
    unfold loopHeader at hle
    omega
  have hlt := hr.room
  refine ⟨⟨hwb b hb, hstep, hroom⟩, Since.enter.snoc ?_, hlimit.trans hlim, hvar.trans hv, h.word.1,
    fun hin => absurd hin hout, fun _ => ⟨Since.enter.snoc (by omega), by simpa using hav a ha⟩⟩
  unfold loopHeader
  omega

omit hw in
/-- The last instruction of the body steps the variable. -/
theorem Counting.step (h : Counting env l e var limit a w f.base es f.ip stack k v)
    (hfits : LimitFits env b s w) (hip : f.ip = e + 4)
    (hquick : Quick env f.chunkIdx f.base (.setLocal var) stack stack')
    (hran : StraightRan env stack f) (hend : c.ops[e + 5]? = some (.endLoop (l + 1)))
    (hb : env.module.wordBitsLog2 ≤ env.runtimeBitsLog2) (hb' : env.runtimeBitsLog2 ≤ 6)
    (hlimit : stack'[f.base + limit]? = some (.int w)) :
    Since l (e + 5) (b - a).toNat (es ++ [f.ip] ++ [e + 5]) ∧
      Counting env l e var limit a w f.base (es ++ [f.ip]) (e + 5) stack' k (v + s) := by
  have hops := ops_of_chunk? hc
  obtain ⟨i, hi, hn⟩ := hr.tailStep
  have hcode : StraightCode (env.ops f.chunkIdx) e f.ip := by
    rw [hops, hip]
    intro p hp hlt
    obtain rfl | rfl | rfl | rfl : p = e ∨ p = e + 1 ∨ p = e + 2 ∨ p = e + 3 := by omega
    · refine ⟨⟨_, hr.tailReads, rfl⟩, ?_⟩
      rw [hi]
      rintro ⟨⟩
    · refine ⟨⟨_, hi, rfl⟩, ?_⟩
      rw [hr.tailAdds]
      rintro ⟨⟩
    · refine ⟨⟨_, hr.tailAdds, rfl⟩, ?_⟩
      rw [hr.tailDrops]
      rintro ⟨⟩
    · refine ⟨⟨_, hr.tailDrops, rfl⟩, ?_⟩
      rw [hr.tailSets]
      rintro ⟨⟩
  obtain ⟨st, hst⟩ := hran e (by omega) hcode
  rw [hip] at hst
  have hroom : l + 5 ≤ e := hr.room
  obtain ⟨j, rfl, hturned, hle, hlt⟩ := h.body ⟨by unfold loopHeader; omega, by omega⟩
  have hpos := hr.positive
  have hword := h.word
  have hnext : Word.InRange env.module.wordBitsLog2 (v + s) :=
    ⟨by omega, le_trans (by omega) hfits.room.2⟩
  have htop := hr.stepped hc hb hb' hfits.step hnext hst h.var_eq
  have hvar : stack'[f.base + var]? = some (.int (v + s)) := by
    cases hquick with
    | setLocal w hlt =>
      rw [List.getLast?_concat] at htop
      rw [List.getElem?_set_self hlt, Option.some.inj htop]
  have hlimit_le := hfits.le
  refine ⟨hturned.pass.mono (by omega), h.since.snoc (by unfold loopHeader; omega), hlimit, hvar,
    hnext.1, ?_, fun _ => ⟨hturned.pass, by push_cast; omega⟩⟩
  rintro ⟨-, hlt⟩
  exact absurd hlt (lt_irrefl _)

omit hr hc hw in
/-- Any other instruction in the loop. -/
theorem Counting.move (h : Counting env l e var limit a w f.base es f.ip stack k v)
    (hip : ip' ≠ l + loopHeader) (hip' : ip' ≠ e + 5) (hbody : InBody l e ip' ↔ InBody l e f.ip)
    (hvar : stack'[f.base + var]? = some (.int v))
    (hlimit : stack'[f.base + limit]? = some (.int w)) :
    Counting env l e var limit a w f.base (es ++ [f.ip]) ip' stack' k v where
  since := h.since.snoc hip
  limit_eq := hlimit
  var_eq := hvar
  word := h.word
  body hin := by
    obtain ⟨j, hj, hturned, hrest⟩ := h.body (hbody.mp hin)
    exact ⟨j, hj, hturned.snoc hip', hrest⟩
  turn hout := by
    obtain ⟨hturned, hle⟩ := h.turn fun hin => hout (hbody.mpr hin)
    exact ⟨hturned.snoc hip', hle⟩

/-- **An instruction keeps the bound of the loop.** -/
theorem Bounded.step (hb : env.module.wordBitsLog2 ≤ env.runtimeBitsLog2)
    (hb' : env.runtimeBitsLog2 ≤ 6) (htrace : traceConstSetLocal c l var = some a)
    (htrace' : traceConstSetLocal c l limit = some b)
    (hvar : var < c.localCount) (hlimit : limit < c.localCount)
    (henter : f.ip = l → EntersWithin env c l f.base stack)
    (h : Bounded env l e var limit a b s f.base es f.ip stack)
    (hm : StepsTo env f op ip' stack stack') (hran : StraightRan env stack f) :
    Bounded env l e var limit a b s f.base (es ++ [f.ip]) ip' stack' := by
  have hop := hm.op_at
  rw [ops_of_chunk? hc] at hop
  obtain ⟨hbreak, hbody, hend, -⟩ := hr.body hw
  have hroom : l + 5 ≤ e := hr.room
  have hcount : env.chunkLocalCount f.chunkIdx = c.localCount := by
    rw [Env.chunkLocalCount, hc]
    rfl
  have hkeeps := hm.keeps
  rw [hcount] at hkeeps
  by_cases hpass : ip' = l + loopHeader
  · -- a pass begins
    subst hpass
    have hip : f.ip = l + 4 := hw.comes_from hop hm.next hbreak rfl
      (hbody.head_ne_endIf (by unfold loopHeader; omega))
    rw [hip] at hop
    cases hbreak.symm.trans hop
    obtain ⟨w, k, v, hfits, hk⟩ := h.inLoop (by omega) (by omega)
    obtain ⟨hle, hlt, hk'⟩ := hk.pass hr hc hw hip
      (hm.breaks _ rfl (by unfold loopHeader; omega)) hran
      ((hkeeps var hvar (by rintro ⟨⟩)).trans hk.var_eq)
      ((hkeeps limit hlimit (by rintro ⟨⟩)).trans hk.limit_eq)
    have hlimit_le := hfits.le
    exact ⟨h.passes.snoc (hk'.since.mono (by omega)),
      h.turns.elsewhere (by unfold loopHeader; omega), fun _ _ => ⟨w, _, _, hfits, hk'⟩⟩
  by_cases hturn : ip' = e + 5
  · -- the body ends
    subst hturn
    have hip : f.ip = e + 4 := hw.comes_from hop hm.next hr.tailSets rfl (by
      rw [hend]
      rintro ⟨⟩)
    rw [hip] at hop
    cases hr.tailSets.symm.trans hop
    obtain ⟨w, k, v, hfits, hk⟩ := h.inLoop (by omega) (by omega)
    have hne : var ≠ limit := by
      rintro rfl
      exact hr.keepsLimit (e + 4) (by unfold loopHeader; omega) (by omega) hr.tailSets
    obtain ⟨hturned, hk'⟩ := hk.step hr hc hfits hip (hm.sets _ rfl) hran hend hb hb'
      ((hkeeps limit hlimit (by rintro ⟨⟩; exact hne rfl)).trans hk.limit_eq)
    exact ⟨h.passes.elsewhere hpass, h.turns.snoc hturned, fun _ _ => ⟨w, _, _, hfits, hk'⟩⟩
  refine ⟨h.passes.elsewhere hpass, h.turns.elsewhere hturn, fun hlo hhi => ?_⟩
  obtain ⟨hlo', hhi'⟩ := hr.enters hw hop hm.next hlo hhi
  have hset (slot : ℕ) (hs : slot = var ∨ slot = limit) : op ≠ .setLocal slot := by
    rintro rfl
    have hip := hr.set_at hw hlo' hhi' hop hs
    have hq : ip' = f.ip + 1 := List.mem_singleton.mp hm.next
    exact hturn (by omega)
  have hvar' := hkeeps var hvar (hset var (.inl rfl))
  have hlimit' := hkeeps limit hlimit (hset limit (.inr rfl))
  have hflows := hr.flows hw hlo' hhi' hop hm.next
  rcases hlo'.eq_or_lt with hip | hlo'
  · -- control enters the loop
    obtain ⟨v, w, hbegins⟩ := henter hip.symm
    obtain rfl : ip' = l + 1 := by
      unfold loopHeader at hflows
      omega
    obtain ⟨hfits, hk⟩ := hbegins.counting hr htrace htrace' hvar' hlimit'
    exact ⟨w, 0, v, hfits, hip ▸ hk⟩
  · obtain ⟨w, k, v, hfits, hk⟩ := h.inLoop hlo' hhi'
    refine ⟨w, k, v, hfits, hk.move hpass hturn ?_ (hvar'.trans hk.var_eq)
      (hlimit'.trans hk.limit_eq)⟩
    unfold InBody loopHeader at *
    omega

end Step

/-! ## Compiled loops -/

/-- The constants of a counted loop, as the compiler sees to them, are words of the width that the
module declares. -/
def LoopWords (env : Env F) (c : Chunk) (l : ℕ) : Prop :=
  ∀ slot n, SetBefore c slot n l → Word.InRange env.module.wordBitsLog2 n

/-- **A compiled loop begins with the words that the verifier takes it to begin with**: the constants
are in their locals when control comes to it. -/
theorem CompiledLoop.enters {f : CallFrame} {stack : List (Value F)} {t : ℕ}
    (h : CompiledLoop c l) (hc : env.chunk? f.chunkIdx = some c)
    (hloop : c.ops[l]? = some (.loop t)) (htest : TestAt c.ops l) (hwords : LoopWords env c l)
    (hb : env.module.wordBitsLog2 ≤ env.runtimeBitsLog2)
    (hone : Word.InRange env.module.wordBitsLog2 1) (hip : f.ip = l)
    (hran : StraightRan env stack f) : EntersWithin env c l f.base stack := by
  have hend : c.ops[l]? ≠ some .endIf := by
    rw [hloop]
    rintro ⟨⟩
  have hvalue {slot : ℕ} {m : ℤ} (h : SetBefore c slot m l) :
      stack[f.base + slot]? = some (.int m) := by
    obtain ⟨j, hj, hcode, hset⟩ := h.ran f.base hc hend
    obtain ⟨st, hst⟩ := hran j (hip ▸ hj.le) (hip ▸ ops_of_chunk? hc ▸ hcode)
    rw [hset st stack (hip ▸ hst), Word.wrap_of_inRange hb (hwords _ _ h)]
  obtain ⟨var, hvar⟩ := htest.var
  obtain ⟨limit, hlimit⟩ := htest.limit
  obtain ⟨-, a, ha⟩ := h.sets var (.inl hvar)
  obtain ⟨-, b, hb'⟩ := h.sets limit (.inr hlimit)
  refine ⟨a, b, fun slot hslot => ?_, fun slot hslot => ?_, hwords _ _ ha, fun m i s hm hi hs => ?_⟩
  · cases hvar.symm.trans hslot
    exact ⟨hvalue ha, fun a' ha' => (Option.some.inj (ha'.symm.trans ha.trace)).le⟩
  · cases hlimit.symm.trans hslot
    exact ⟨hvalue hb', fun b'' hb'' => (Option.some.inj (hb''.symm.trans hb'.trace)).ge⟩
  · cases hs.symm.trans (h.steps m i hm hi)
    rw [add_sub_cancel_right]
    exact ⟨hone, hwords _ _ hb'⟩

end Keleusma
