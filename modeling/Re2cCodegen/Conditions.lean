import Re2cCodegen.Options
import Re2cCodegen.Output

/-! Start conditions: the condition list that `types:re2c` gathers from the blocks and the
enumeration it emits, and the dispatch on `YYGETCONDITION()` that a block begins with. -/

namespace Re2cCodegen.Conditions

open Re2cCodegen.Options Re2cCodegen.Dfa Re2cCodegen.Output

structure StartCond where
  name : String
  number : Nat
  deriving DecidableEq, Repr, Inhabited

/-- The part of an output block the second pass reads. -/
structure OutputBlock where
  name : String
  isUse : Bool
  opts : Opts
  conds : List StartCond
  /-- `start_label`; a block that generates no code has none. -/
  startLabel : Option Label
  /-- `fill_goto`: the code that resumes after each `YYFILL`, by its state number. -/
  fillGoto : List (Nat × List Code)
  usedYyaccept : Bool
  deriving Repr, Inhabited

def condClashMessage (name : String) : String :=
  "cannot generate condition enumeration: conditon \x27" ++ name ++
    "\x27 has different numbers in different blocks (use `re2c:condenumprefix` " ++
    "configuration to set per-block prefix)"

def addConditionFromBlock (block : OutputBlock) (conds : List StartCond) (cond : StartCond) :
    Except String (List StartCond) :=
  -- the prefix is the block's own: conditions of one name in two blocks may differ by it
  let cond := { cond with name := block.opts.condEnumPrefix ++ cond.name }
  match conds.find? (·.name == cond.name) with
  | some c => if c.number == cond.number then .ok conds else .error (condClashMessage cond.name)
  | none => .ok (conds ++ [cond])

def addConditionsFromBlocks (blocks : List OutputBlock) (conds : List StartCond) :
    Except String (List StartCond) :=
  blocks.foldlM (fun conds block => block.conds.foldlM (addConditionFromBlock block) conds) conds

/-- What `gen_cond_enum` puts in place of the directive: one formatted entry per condition,
kept as the name and the number it substitutes, or an enum declaration whose values are
explicit in loop/switch and rec/func mode and implicit in goto/label mode. -/
inductive CondEnum
  | empty
  | raw (entries : List (String × Nat))
  | enum (ids : List String) (nums : Option (List Nat))
  deriving DecidableEq, Repr

def CondEnum.value : CondEnum → String → Option Nat
  | .empty, _ => none
  | .raw es, c => (es.find? (·.1 == c)).map (·.2)
  | .enum ids none, c => ids.indexOf? c
  | .enum ids (some ns), c => (ids.indexOf? c).bind ns.get?

def genCondEnum (opts : Opts) (formatted : Bool) (conds : List StartCond) : CondEnum :=
  if conds.isEmpty then .empty
  else if formatted then
    .raw (conds.enum.map fun (i, c) => (c.name, if opts.codeModel = .gotoLabel then i else c.number))
  else
    .enum (conds.map (·.name))
      (if opts.codeModel = .gotoLabel then none else some (conds.map (·.number)))

/-- `blocks` are the blocks the directive gathers: those of the output and header files, or
those it names. -/
def expandCondEnum (globopts : Opts) (formatted : Bool) (blocks : List OutputBlock) :
    Except String CondEnum :=
  if globopts.target ≠ .code then .ok .empty
  else do
    let conds ← addConditionsFromBlocks blocks []
    -- an empty enumeration more likely means an error in the user's code
    if conds.isEmpty then pure .empty else pure (genCondEnum globopts formatted conds)

/-- The if-tree on `YYGETCONDITION() < middle` over `conds[lower..upper]`; the calls it gets
have `lower ≤ upper`, where the source tests `lower == upper`. -/
def genCondGotoBinary (conds : List StartCond) (lower upper : Nat) : List Code :=
  if lower < upper then
    let middle := lower + (upper - lower + 1) / 2
    [.ifte (.cmp .lt .getCond (.num middle)) (genCondGotoBinary conds lower (middle - 1))
      (genCondGotoBinary conds middle upper)]
  else [.goto (.cond (conds.getD lower default).name)]
termination_by upper - lower

/-- The condition dispatch of a block in goto/label mode, and whether it warns that it
depends on the order of the conditions. -/
def genCondGoto (opts : Opts) (conds : List StartCond) (warnConditionOrder : Bool) :
    List Code × Bool :=
  if opts.target = .dot then
    (conds.map fun c => .text ("0 -> " ++ c.name ++ " [label=\"state=" ++ c.name ++ "\"]"), false)
  else
    let (stmts, warn) :=
      if opts.computedGotos then ([.gotoTable .yyctable .getCond], warnConditionOrder)
      else if opts.nestedIfs then
        (genCondGotoBinary conds 0 (conds.length - 1), warnConditionOrder && 1 < conds.length)
      else
        ([.switch .getCond (conds.map (fun c =>
            (.string (opts.condEnumPrefix ++ c.name), [.goto (.cond c.name)])) ++
          if opts.condAbort then [(.dflt, [.abort])] else [])], false)
    (stmts, warn && opts.headerFile.isEmpty)

def genCondTable (conds : List StartCond) : List Code :=
  [.array .yyctable (conds.map fun c => .cond c.name)]

/-! What gathering the conditions of `types:re2c` gives: each name once, with its number, or
the first name that comes back with another number. -/

def prefixedConds (blocks : List OutputBlock) : List StartCond :=
  blocks.flatMap fun b => b.conds.map fun c => { c with name := b.opts.condEnumPrefix ++ c.name }

def Clash (l : List StartCond) : Prop := ∃ c ∈ l, ∃ d ∈ l, c.name = d.name ∧ c.number ≠ d.number

def firstOccurrences : List StartCond → List StartCond
  | [] => []
  | c :: cs => c :: (firstOccurrences cs).filter (·.name != c.name)

section Gather

theorem firstOccurrences_sublist (l : List StartCond) : (firstOccurrences l).Sublist l := by
  induction l with
  | nil => exact .slnil
  | cons c l ih => exact ((List.filter_sublist _).trans ih).cons₂ c

theorem nodup_names_firstOccurrences (l : List StartCond) :
    ((firstOccurrences l).map (·.name)).Nodup := by
  induction l with
  | nil => exact .nil
  | cons c l ih =>
    refine List.nodup_cons.2 ⟨by simp [List.mem_filter], ?_⟩
    exact (ih.sublist ((List.filter_sublist _).map _))

theorem any_name_firstOccurrences (l : List StartCond) (x : String) :
    (firstOccurrences l).any (·.name == x) = l.any (·.name == x) := by
  induction l with
  | nil => rfl
  | cons d l ih =>
    by_cases hd : d.name = x
    · simp [firstOccurrences, hd]
    · have hf : (fun c : StartCond => (c.name != d.name) && (c.name == x)) = (·.name == x) :=
        funext fun c => by by_cases hc : c.name = x <;> simp [hc, Ne.symm hd]
      simp only [firstOccurrences, List.any_cons, List.any_filter, hf, ih]

theorem mem_firstOccurrences {l : List StartCond} (h : ¬Clash l) {c : StartCond} (hc : c ∈ l) :
    c ∈ firstOccurrences l := by
  have hany : (firstOccurrences l).any (·.name == c.name) = true := by
    rw [any_name_firstOccurrences]
    exact List.any_eq_true.2 ⟨c, hc, beq_self_eq_true _⟩
  obtain ⟨d, hd, hdn⟩ := List.any_eq_true.1 hany
  have hdn : d.name = c.name := by simpa using hdn
  have hnum : d.number = c.number :=
    Classical.not_not.1 fun hne => h ⟨d, (firstOccurrences_sublist l).subset hd, c, hc, hdn, hne⟩
  obtain ⟨_, _⟩ := d
  obtain ⟨_, _⟩ := c
  simp_all

theorem firstOccurrences_append_singleton (l : List StartCond) (c : StartCond) :
    firstOccurrences (l ++ [c]) =
      if l.any (·.name == c.name) then firstOccurrences l else firstOccurrences l ++ [c] := by
  induction l with
  | nil => rfl
  | cons d l ih =>
    rw [List.cons_append, firstOccurrences, ih, firstOccurrences]
    by_cases hl : l.any (·.name == c.name) = true
    · rw [if_pos hl, if_pos (by simp [hl])]
    · by_cases hd : d.name = c.name
      · rw [if_neg hl, if_pos (by simp [hd]), List.filter_append]
        simp [hd]
      · rw [if_neg hl, if_neg (by simpa [hd] using hl), List.filter_append]
        simp [Ne.symm hd]

theorem not_clash_of_append {l l' : List StartCond} (h : ¬Clash (l ++ l')) : ¬Clash l :=
  fun ⟨c, hc, d, hd, hn⟩ => h ⟨c, List.mem_append_left _ hc, d, List.mem_append_left _ hd, hn⟩

theorem clash_append_singleton {l : List StartCond} {c : StartCond} (hl : ¬Clash l)
    (hc : ¬∃ d ∈ l, d.name = c.name ∧ d.number ≠ c.number) : ¬Clash (l ++ [c]) := by
  rintro ⟨a, ha, b, hb, hn, hne⟩
  simp only [List.mem_append, List.mem_singleton] at ha hb
  rcases ha with ha | rfl <;> rcases hb with hb | rfl
  · exact hl ⟨a, ha, b, hb, hn, hne⟩
  · exact hc ⟨a, ha, hn, hne⟩
  · exact hc ⟨b, hb, hn.symm, Ne.symm hne⟩
  · exact hne rfl

/-- The condition of block `p.1` that `add_condition_from_block` adds for `p.2`. -/
def prefixedPair (p : OutputBlock × StartCond) : StartCond :=
  { p.2 with name := p.1.opts.condEnumPrefix ++ p.2.name }

theorem addConditionFromBlock_firstOccurrences (block : OutputBlock) (cond : StartCond)
    {seen : List StartCond} (hs : ¬Clash seen) :
    addConditionFromBlock block (firstOccurrences seen) cond =
      if ∃ d ∈ seen, d.name = (prefixedPair (block, cond)).name ∧
        d.number ≠ (prefixedPair (block, cond)).number
      then .error (condClashMessage (prefixedPair (block, cond)).name)
      else .ok (firstOccurrences (seen ++ [prefixedPair (block, cond)])) := by
  obtain ⟨c, hc⟩ : ∃ c, prefixedPair (block, cond) = c := ⟨_, rfl⟩
  have hstep : addConditionFromBlock block (firstOccurrences seen) cond =
      match (firstOccurrences seen).find? (·.name == c.name) with
      | some d => if d.number == c.number then .ok (firstOccurrences seen)
        else .error (condClashMessage c.name)
      | none => .ok (firstOccurrences seen ++ [c]) := by
    subst hc
    rfl
  rw [hstep, hc, firstOccurrences_append_singleton]
  cases hf : (firstOccurrences seen).find? (·.name == c.name) with
  | none =>
    have hany : seen.any (·.name == c.name) = false := by
      rw [← any_name_firstOccurrences, Bool.eq_false_iff]
      intro h
      obtain ⟨d, hd, hdn⟩ := List.any_eq_true.1 h
      exact absurd hdn (by simpa using List.find?_eq_none.1 hf d hd)
    have hno : ¬∃ d ∈ seen, d.name = c.name ∧ d.number ≠ c.number := fun ⟨d, hd, hdn, _⟩ => by
      simpa [hdn] using List.any_eq_false.1 hany d hd
    simp [hany, hno]
  | some d =>
    have hd := (firstOccurrences_sublist seen).subset (List.mem_of_find?_eq_some hf)
    have hdn : d.name = c.name := by simpa using List.find?_some hf
    have hany : seen.any (·.name == c.name) = true := List.any_eq_true.2 ⟨d, hd, by simpa using hdn⟩
    by_cases hnum : d.number = c.number
    · have hno : ¬∃ d ∈ seen, d.name = c.name ∧ d.number ≠ c.number := fun ⟨e, he, hen, hne⟩ =>
        hs ⟨e, he, d, hd, hen.trans hdn.symm, hnum ▸ hne⟩
      simp [hnum, hany, hno]
    · simp [hnum, show ∃ d ∈ seen, d.name = c.name ∧ d.number ≠ c.number from ⟨d, hd, hdn, hnum⟩]

theorem addConditionsFromBlocks_eq (blocks : List OutputBlock) (acc : List StartCond) :
    addConditionsFromBlocks blocks acc =
      (blocks.flatMap fun b => b.conds.map (b, ·)).foldlM (fun acc p => addConditionFromBlock p.1 acc p.2) acc := by
  induction blocks generalizing acc with
  | nil => rfl
  | cons b bs ih =>
    simp only [addConditionsFromBlocks, List.foldlM_cons, List.flatMap_cons, List.foldlM_append,
      List.foldlM_map] at ih ⊢
    exact congrArg _ (funext ih)

variable (ps : List (OutputBlock × StartCond))

theorem foldlM_addCondition_ok {seen : List StartCond} (h : ¬Clash (seen ++ ps.map prefixedPair)) :
    ps.foldlM (fun acc p => addConditionFromBlock p.1 acc p.2) (firstOccurrences seen) =
      .ok (firstOccurrences (seen ++ ps.map prefixedPair)) := by
  induction ps generalizing seen with
  | nil => simp only [List.map_nil, List.append_nil, List.foldlM_nil]; rfl
  | cons p ps ih =>
    have hstep : ¬∃ d ∈ seen, d.name = (prefixedPair p).name ∧ d.number ≠ (prefixedPair p).number :=
      fun ⟨d, hd, hn, hne⟩ => h ⟨d, by simp [hd], prefixedPair p, by simp, hn, hne⟩
    rw [List.foldlM_cons, addConditionFromBlock_firstOccurrences _ _ (not_clash_of_append h),
      if_neg hstep]
    exact (@ih (seen ++ [prefixedPair p]) (by simpa using h)).trans (by simp)

theorem foldlM_addCondition_error {seen pre post : List StartCond} {c : StartCond}
    (hps : ps.map prefixedPair = pre ++ c :: post) (hpre : ¬Clash (seen ++ pre))
    (hc : ∃ d ∈ seen ++ pre, d.name = c.name ∧ d.number ≠ c.number) :
    ps.foldlM (fun acc p => addConditionFromBlock p.1 acc p.2) (firstOccurrences seen) =
      .error (condClashMessage c.name) := by
  induction ps generalizing seen pre with
  | nil => simp at hps
  | cons p ps ih =>
    rw [List.foldlM_cons, addConditionFromBlock_firstOccurrences _ _ (not_clash_of_append hpre)]
    cases pre with
    | nil =>
      obtain ⟨rfl, -⟩ := List.cons.inj hps
      simp only [List.append_nil] at hc
      rw [if_pos hc]
      rfl
    | cons q pre =>
      simp only [List.map_cons, List.cons_append, List.cons.injEq] at hps
      obtain ⟨rfl, hps⟩ := hps
      have hstep : ¬∃ d ∈ seen, d.name = (prefixedPair p).name ∧ d.number ≠ (prefixedPair p).number :=
        fun ⟨d, hd, hn, hne⟩ => hpre ⟨d, by simp [hd], prefixedPair p, by simp, hn, hne⟩
      rw [if_neg hstep]
      exact @ih (seen ++ [prefixedPair p]) pre hps (by simpa using hpre) (by simpa using hc)

theorem exists_first_clash {seen : List StartCond} (hs : ¬Clash seen) :
    ∀ l, Clash (seen ++ l) → ∃ pre c post, l = pre ++ c :: post ∧ ¬Clash (seen ++ pre) ∧
      ∃ d ∈ seen ++ pre, d.name = c.name ∧ d.number ≠ c.number := by
  intro l
  induction l generalizing seen with
  | nil => simpa using hs
  | cons c l ih =>
    intro h
    by_cases hc : ∃ d ∈ seen, d.name = c.name ∧ d.number ≠ c.number
    · exact ⟨[], c, l, rfl, by simpa using hs, by simpa using hc⟩
    · obtain ⟨pre, c', post, rfl, hpre, hc'⟩ :=
        @ih (seen ++ [c]) (clash_append_singleton hs hc) (by simpa using h)
      exact ⟨c :: pre, c', post, rfl, by simpa using hpre, by simpa using hc'⟩

end Gather

theorem addConditionsFromBlocks_gathers (blocks : List OutputBlock) :
    ((∃ r, addConditionsFromBlocks blocks [] = .ok r) ↔ ¬Clash (prefixedConds blocks)) ∧
    (¬Clash (prefixedConds blocks) →
      addConditionsFromBlocks blocks [] = .ok (firstOccurrences (prefixedConds blocks)) ∧
      ((firstOccurrences (prefixedConds blocks)).map (·.name)).Nodup ∧
      (firstOccurrences (prefixedConds blocks)).Sublist (prefixedConds blocks) ∧
      ∀ c ∈ prefixedConds blocks, c ∈ firstOccurrences (prefixedConds blocks)) ∧
    ∀ pre c post, prefixedConds blocks = pre ++ c :: post → ¬Clash pre →
      (∃ d ∈ pre, d.name = c.name ∧ d.number ≠ c.number) →
      addConditionsFromBlocks blocks [] = .error (condClashMessage c.name) := by
  have hmap : prefixedConds blocks = (blocks.flatMap fun b => b.conds.map (b, ·)).map prefixedPair := by
    simp only [prefixedConds, List.map_flatMap, List.map_map]
    rfl
  have hnil : ¬Clash [] := fun ⟨_, h, _⟩ => by cases h
  have hok : ¬Clash (prefixedConds blocks) →
      addConditionsFromBlocks blocks [] = .ok (firstOccurrences (prefixedConds blocks)) := fun h => by
    rw [addConditionsFromBlocks_eq, hmap]
    exact @foldlM_addCondition_ok _ [] (by simpa [← hmap] using h)
  have herr : ∀ pre c post, prefixedConds blocks = pre ++ c :: post → ¬Clash pre →
      (∃ d ∈ pre, d.name = c.name ∧ d.number ≠ c.number) →
      addConditionsFromBlocks blocks [] = .error (condClashMessage c.name) := fun pre c post hps hpre hc => by
    rw [addConditionsFromBlocks_eq]
    exact @foldlM_addCondition_error _ [] pre post c (hmap ▸ hps) (by simpa using hpre) (by simpa using hc)
  refine ⟨⟨fun ⟨r, hr⟩ hcl => ?_, fun h => ⟨_, hok h⟩⟩, fun h => ⟨hok h,
    nodup_names_firstOccurrences _, firstOccurrences_sublist _, fun c => mem_firstOccurrences h⟩, herr⟩
  obtain ⟨pre, c, post, hps, hpre, hc⟩ := exists_first_clash hnil _ (by simpa using hcl)
  rw [herr pre c post hps (by simpa using hpre) (by simpa using hc)] at hr
  cases hr

theorem step_condSwitch (pre : String) (conds : List StartCond) (body : StartCond → List Code)
    (extra : List (CaseLbl × List Code)) (env : Env) (m : Mem) {c : StartCond} (hc : c ∈ conds)
    (hm : m.cond = some (env.enumVal (pre ++ c.name)))
    (hd : (conds.map fun c => env.enumVal (pre ++ c.name)).Nodup) :
    step env (.switch .getCond (conds.map (fun c => (.string (pre ++ c.name), body c)) ++ extra)) m =
      exec env (body c) m := by
  have hf := find?_eq_of_nodup_map hd hc (p := fun c' =>
    (CaseLbl.string (pre ++ c'.name)).hits env (some (env.enumVal (pre ++ c.name))))
    fun _ _ => by simp only [CaseLbl.hits, beq_iff_eq, Option.some.injEq]; exact eq_comm
  rw [step_switch, Expr.eval, hm, List.find?_append, List.find?_map]
  simp only [Function.comp_def, hf, Option.map_some', Option.or_some]

theorem exec_genCondGotoBinary (conds : List StartCond) (env : Env) (m : Mem) {i : Nat}
    (hm : m.cond = some (i : Int)) (lower upper : Nat) (hl : lower ≤ i) (hu : i ≤ upper) :
    exec env (genCondGotoBinary conds lower upper) m =
      .jump m (.goto (.cond (conds.getD i default).name)) := by
  induction lower, upper using genCondGotoBinary.induct conds with
  | case1 lower upper hlt middle ih1 ih2 =>
    rw [genCondGotoBinary, if_pos hlt]
    simp only [exec_cons, step, Cond.eval, Expr.eval, hm, Cmp.holds, exec_nil_eq, Outcome.bind_next',
      decide_eq_true_eq]
    have hm' : middle = lower + (upper - lower + 1) / 2 := rfl
    by_cases h : i < middle
    · rw [if_pos (by omega)]
      exact ih1 hl (by omega)
    · rw [if_neg (by omega)]
      exact ih2 (by omega) hu
  | case2 lower upper hge =>
    rw [genCondGotoBinary, if_neg hge, show i = lower by omega]
    rfl

theorem exec_genCondGoto (opts : Opts) (conds : List StartCond) (w : Bool) (env : Env) (m : Mem)
    (htarget : opts.target = .code) {i : Nat} (hi : i < conds.length)
    (hm : m.cond = some (env.enumVal (opts.condEnumPrefix ++ (conds.get ⟨i, hi⟩).name)))
    (hd : (conds.map fun c => env.enumVal (opts.condEnumPrefix ++ c.name)).Nodup)
    (hpos : opts.computedGotos ∨ opts.nestedIfs → ∀ j (hj : j < conds.length),
      env.enumVal (opts.condEnumPrefix ++ (conds.get ⟨j, hj⟩).name) = j)
    (htable : opts.computedGotos → m.tables .yyctable = conds.map fun c => .cond c.name) :
    exec env (genCondGoto opts conds w).1 m = .jump m (.goto (.cond (conds.get ⟨i, hi⟩).name)) := by
  unfold genCondGoto
  rw [if_neg (by simp [htarget])]
  by_cases hcg : opts.computedGotos = true
  · rw [hpos (.inl hcg) i hi] at hm
    simp [hcg, exec_cons, step, Expr.eval, hm, htable hcg, tableExit, List.getElem?_eq_getElem hi,
      Int.ofNat_nonneg]
  · by_cases hni : opts.nestedIfs = true
    · rw [hpos (.inr hni) i hi] at hm
      simp only [hcg, hni, if_true, Bool.false_eq_true, if_false]
      rw [exec_genCondGotoBinary conds env m hm 0 _ (Nat.zero_le _) (by omega)]
      simp [List.getD_eq_getElem?_getD, List.getElem?_eq_getElem hi]
    · simp only [hcg, hni, Bool.false_eq_true, if_false, exec_cons, exec_nil_eq, Outcome.bind_next']
      rw [step_condSwitch _ _ (fun c => [.goto (.cond c.name)]) _ env m (List.get_mem _ _ _) hm hd]
      rfl

theorem genCondGoto_labelOk (p : Lbl → Bool) (opts : Opts) (conds : List StartCond) (w : Bool) :
    (genCondGoto opts conds w).1.all (·.labelOk p) = true := by
  unfold genCondGoto
  split
  · simp [Code.labelOk]
  · by_cases hcg : opts.computedGotos = true
    · simp [hcg, Code.labelOk]
    · by_cases hni : opts.nestedIfs = true
      · simp only [hcg, hni, if_true, Bool.false_eq_true, if_false]
        rw [genCondGotoBinary]
        split <;> rfl
      · simp [hcg, hni, Code.labelOk]

theorem ifLeaves_genCondGotoBinary (conds : List StartCond) (lower upper : Nat) (h : lower ≤ upper) :
    ifLeaves (genCondGotoBinary conds lower upper) =
      (List.range' lower (upper + 1 - lower)).map fun i => [.goto (.cond (conds.getD i default).name)] := by
  induction lower, upper using genCondGotoBinary.induct conds with
  | case1 lower upper hlt middle ih1 ih2 =>
    have hm : middle = lower + (upper - lower + 1) / 2 := rfl
    have hsplit := (List.range'_append lower (middle - lower) (upper + 1 - middle) 1).symm
    rw [show lower + 1 * (middle - lower) = middle by omega,
      show upper + 1 - middle + (middle - lower) = upper + 1 - lower by omega] at hsplit
    rw [genCondGotoBinary, if_pos hlt, ifLeaves, ih1 (by omega), ih2 (by omega),
      show middle - 1 + 1 - lower = middle - lower by omega, hsplit, List.map_append]
  | case2 lower upper hge =>
    rw [genCondGotoBinary, if_neg hge, show upper + 1 - lower = 1 by omega,
      ifLeaves_of_ne _ fun c t e h => by cases h]
    rfl

theorem exec_genCondTable (conds : List StartCond) (env : Env) (cs : List Code) (m : Mem) :
    exec env (genCondTable conds ++ cs) m =
      exec env cs { m with tables := Function.update m.tables .yyctable (conds.map fun c => .cond c.name) } :=
  rfl

theorem cond_goto_binary_dispatch (conds : List StartCond) (hn : conds ≠ []) :
    ifLeaves (genCondGotoBinary conds 0 (conds.length - 1)) =
      conds.map (fun c => [.goto (.cond c.name)]) ∧
    ∀ v (hv : v < conds.length) (env : Env) (m : Mem), m.cond = some (v : Int) →
      exec env (genCondGotoBinary conds 0 (conds.length - 1)) m =
        .jump m (.goto (.cond (conds.get ⟨v, hv⟩).name)) ∧
      ∀ (opts : Opts) (w : Bool), opts.target ≠ .dot → opts.computedGotos = true →
        ∃ m', exec env (genCondTable conds ++ (genCondGoto opts conds w).1) m =
          .jump m' (.goto (.cond (conds.get ⟨v, hv⟩).name)) := by
  have hlen : 0 < conds.length := List.length_pos.2 hn
  refine ⟨?_, fun v hv env m hm => ⟨?_, fun opts w hdot hcg =>
    ⟨{ m with tables := Function.update m.tables .yyctable (conds.map fun c => .cond c.name) }, ?_⟩⟩⟩
  · rw [ifLeaves_genCondGotoBinary conds 0 _ (Nat.zero_le _), show conds.length - 1 + 1 - 0 = conds.length by omega]
    refine List.ext_getElem (by simp) fun i h _ => ?_
    simp [List.getD_eq_getElem?_getD, List.getElem?_eq_getElem (show i < conds.length by simpa using h)]
  · rw [exec_genCondGotoBinary conds env m hm 0 _ (Nat.zero_le _) (by omega)]
    simp [List.getD_eq_getElem?_getD, List.getElem?_eq_getElem hv]
  · rw [exec_genCondTable]
    simp [genCondGoto, hdot, hcg, exec_cons, step, Expr.eval, hm, tableExit, List.getElem?_eq_getElem hv,
      Int.ofNat_nonneg]

def threeConds : List StartCond := [⟨"a", 0⟩, ⟨"b", 1⟩, ⟨"c", 2⟩]

theorem cond_goto_binary_dispatch_three :
    threeConds ≠ [] ∧
    ifLeaves (genCondGotoBinary threeConds 0 2) =
      [[.goto (.cond "a")], [.goto (.cond "b")], [.goto (.cond "c")]] ∧
    exec default (genCondGotoBinary threeConds 0 2) { (default : Mem) with cond := some 1 } =
      .jump { (default : Mem) with cond := some 1 } (.goto (.cond "b")) :=
  have h := cond_goto_binary_dispatch threeConds (by decide)
  ⟨by decide, h.1, (h.2 1 (by decide) default _ rfl).1⟩

def nestedIfsOpts : Opts :=
  { (default : Opts) with nestedIfs := true, condEnumPrefix := "yyc" }

def twoBlocks : List OutputBlock :=
  [{ (default : OutputBlock) with opts := nestedIfsOpts, conds := [⟨"a", 0⟩, ⟨"b", 1⟩] },
   { (default : OutputBlock) with opts := nestedIfsOpts, conds := [⟨"c", 0⟩, ⟨"d", 1⟩] }]

theorem condEnum_merged_position :
    expandCondEnum nestedIfsOpts false twoBlocks =
      .ok (.enum ["yyca", "yycb", "yycc", "yycd"] none) ∧
    (CondEnum.enum ["yyca", "yycb", "yycc", "yycd"] none).value "yycc" = some 2 ∧
    exec default (genCondGotoBinary [⟨"c", 0⟩, ⟨"d", 1⟩] 0 1) { (default : Mem) with cond := some 2 } =
      .jump { (default : Mem) with cond := some 2 } (.goto (.cond "d")) ∧
    tableExit [.cond "c", .cond "d"] (some 2) = .undefined := by
  refine ⟨rfl, by decide, ?_, rfl⟩
  simp [genCondGotoBinary, exec_cons, step, Cond.eval, Expr.eval, Cmp.holds]

end Re2cCodegen.Conditions
