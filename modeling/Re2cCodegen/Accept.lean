import Re2cCodegen.Transitions

/-! The ACCEPT action: restore the position of the longest match, then dispatch on
`yyaccept` to the saved alternative by a jump, a computed `goto`, a binary tree of IFs or
a switch. -/

namespace Re2cCodegen.Accept

open Re2cCodegen.Options Re2cCodegen.Dfa Re2cCodegen.Output Re2cCodegen.TagActions
  Re2cCodegen.Transitions

def genRestore (opts : Opts) : List Code :=
  if opts.api = .default then [.assign [.cursor] (.var .marker)] else [.restore]

def acceptJump (a : AcceptTrans) : CodeJump := ⟨a.state, a.tags, false, false, false⟩

def emitAcceptBinary (opts : Opts) (dfa : Adfa) (acc : List AcceptTrans) (l r : Nat) : List Code :=
  if l < r then
    let m := (l + r) / 2
    [.ifte (.cmp (if r = l + 1 then .eq else .le) (.var .yyaccept) (.num m))
      (emitAcceptBinary opts dfa acc l m) (emitAcceptBinary opts dfa acc (m + 1) r)]
  else genGoto opts dfa none (acceptJump (acc.getD l default))
termination_by r - l

def emitAccept (opts : Opts) (dfa : Adfa) (acc : List AcceptTrans) : List Code :=
  let nacc := acc.length
  if nacc = 0 then [] else
  genRestore opts ++
    -- one alternative: an unconditional jump
    if nacc = 1 then genGoto opts dfa none (acceptJump (acc.getD 0 default))
    else
      let haveTags := acc.any (·.tags ≠ tcid0)
      if opts.computedGotos && opts.computedGotosThreshold ≤ nacc && !haveTags then
        [.block [.array .yytarget (acc.map fun a => .num (dfa.label a.state).index),
          .gotoTable .yytarget (.var .yyaccept)]]
      else if opts.nestedIfs || nacc = 2 then emitAcceptBinary opts dfa acc 0 (nacc - 1)
      else
        [.switch (.var .yyaccept) (acc.enum.map fun (i, a) =>
          (if i = nacc - 1 then .dflt else .number i, genGoto opts dfa none (acceptJump a)))]

def acceptOutcome (opts : Opts) (dfa : Adfa) (env : Env) (a : AcceptTrans) (m : Mem) : Outcome :=
  .jump (runTags opts dfa env a.tags m) (stateExit opts.codeModel dfa a.state)

def restoreMem (m : Mem) : Mem := m.setPos .cursor (m.get .marker)

theorem find?_enumFrom_index {α : Type} [Inhabited α] (l : List α) (v : Nat) (q : Nat → Bool)
    (p : Nat × α → Bool) (hp : ∀ x, p x = (decide (x.1 = v) && q x.1)) (k : Nat) :
    (l.enumFrom k).find? p =
      if k ≤ v ∧ v < k + l.length ∧ q v then some (v, l.getD (v - k) default) else none := by
  rw [show p = _ from funext hp]
  induction l generalizing k with
  | nil => rw [if_neg (by simp only [List.length_nil, Nat.add_zero]; omega)]; rfl
  | cons a l ih =>
    rw [List.enumFrom_cons, List.find?_cons, ih]
    by_cases hv : k = v
    · subst hv
      by_cases hq : q k <;> simp [hq]
    · by_cases hlt : k < v
      · obtain ⟨d, rfl⟩ : ∃ d, v = k + 1 + d := ⟨v - (k + 1), by omega⟩
        simp [hv, show k + 1 + d - k = d + 1 by omega, show k + (d + 1) - (k + 1) = d by omega,
          Nat.add_assoc, Nat.add_comm 1]
      · rw [if_neg (by omega), if_neg (by omega)]
        simp [hv]

section

variable (opts : Opts) (dfa : Adfa) (env : Env) (acc : List AcceptTrans)

theorem exec_acceptJump (a : AcceptTrans) (h : (dfa.label a.state).used = true) (m : Mem) :
    exec env (genGoto opts dfa none (acceptJump a)) m = acceptOutcome opts dfa env a m := by
  rw [show genGoto opts dfa none (acceptJump a) = genTransition opts dfa (acceptJump a) from rfl,
    exec_genTransition, if_pos (by simp [emitsTransfer, acceptJump, h])]
  rfl

theorem exec_genRestore (m : Mem) : exec env (genRestore opts) m = .next (restoreMem m) := by
  unfold genRestore
  split <;> rfl

theorem exec_emitAcceptBinary (hused : ∀ a ∈ acc, (dfa.label a.state).used = true) (l r v : Nat)
    (hl : l ≤ v) (hr : v ≤ r) (hlen : r < acc.length) (m : Mem) (hm : m.get .yyaccept = some (v : Int)) :
    exec env (emitAcceptBinary opts dfa acc l r) m = acceptOutcome opts dfa env (acc.getD v default) m := by
  induction l, r using emitAcceptBinary.induct opts dfa acc with
  | case1 l r hlt mid ih1 ih2 =>
    rw [emitAcceptBinary, if_pos hlt]
    have hcmp : (if r = l + 1 then Cmp.eq else Cmp.le).holds (some (v : Int))
        (some (((l : Int) + r) / 2)) = decide (v ≤ (l + r) / 2) := by
      by_cases hv : v ≤ (l + r) / 2 <;> split <;> simp [Cmp.holds, hv] <;> omega
    by_cases hv : v ≤ (l + r) / 2
    · simp [exec_cons, step, Cond.eval, Expr.eval, hm, hcmp, hv, ih1 hl hv (by omega)]
    · simp [exec_cons, step, Cond.eval, Expr.eval, hm, hcmp, hv, ih2 (by omega) hr hlen]
  | case2 l r hge =>
    rw [emitAcceptBinary, if_neg hge, show l = v by omega]
    exact exec_acceptJump opts dfa env _ (hused _ (by simp [List.getElem?_eq_getElem (show v < acc.length by omega)])) m

theorem ifLeaves_emitAcceptBinary (l r : Nat) (h : l ≤ r) :
    ifLeaves (emitAcceptBinary opts dfa acc l r) =
      (List.range' l (r + 1 - l)).map fun i => genGoto opts dfa none (acceptJump (acc.getD i default)) := by
  induction l, r using emitAcceptBinary.induct opts dfa acc with
  | case1 l r hlt mid ih1 ih2 =>
    have hsplit := (List.range'_append l (mid + 1 - l) (r + 1 - (mid + 1)) 1).symm
    rw [show l + 1 * (mid + 1 - l) = mid + 1 by omega,
      show r + 1 - (mid + 1) + (mid + 1 - l) = r + 1 - l by omega] at hsplit
    rw [emitAcceptBinary, if_pos hlt, ifLeaves, ih1 (by omega), ih2 (by omega), hsplit,
      List.map_append]
  | case2 l r hge =>
    rw [emitAcceptBinary, if_neg hge, show r + 1 - l = 1 by omega,
      ifLeaves_of_ne _ fun c t e h => ifte_not_mem_genTransition opts dfa _ c t e (h ▸ List.mem_singleton_self _)]
    rfl

theorem exec_acceptSwitch (hused : ∀ a ∈ acc, (dfa.label a.state).used = true) (v : Nat)
    (hv : v < acc.length) (m : Mem) (hm : m.get .yyaccept = some (v : Int)) :
    exec env [.switch (.var .yyaccept) (acc.enum.map fun (i, a) =>
      (if i = acc.length - 1 then .dflt else .number i, genGoto opts dfa none (acceptJump a)))] m =
      acceptOutcome opts dfa env (acc.getD v default) m := by
  have hhit : ∀ x : Nat × AcceptTrans,
      (if x.1 = acc.length - 1 then CaseLbl.dflt else .number x.1).hits env (some (v : Int)) =
        (decide (x.1 = v) && !decide (x.1 = acc.length - 1)) := by
    intro x
    split
    · simp_all [CaseLbl.hits]
    · rename_i h
      by_cases hx : x.1 = v
      · subst hx
        simp [CaseLbl.hits, h]
      · simp [CaseLbl.hits, h, hx]
        omega
  have hdflt : ∀ x : Nat × AcceptTrans,
      decide ((if x.1 = acc.length - 1 then CaseLbl.dflt else .number x.1) = .dflt) =
        (decide (x.1 = acc.length - 1) && true) := by
    intro x
    split <;> simp_all
  simp only [exec_cons, exec_nil_eq, Outcome.bind_next', step_switch, List.find?_map, List.enum,
    Function.comp_def, Expr.eval, hm]
  have hmem : acc.getD v default ∈ acc := by simp [List.getElem?_eq_getElem hv]
  rw [find?_enumFrom_index _ v (fun i => !decide (i = acc.length - 1)) _ hhit,
    find?_enumFrom_index _ (acc.length - 1) (fun _ => true) _ hdflt]
  by_cases hlast : v = acc.length - 1
  · subst hlast
    simp only [Nat.zero_le, Nat.zero_add, hv, Bool.not_true, Bool.and_false, and_false, if_false,
      and_self, if_true, Nat.sub_zero]
    simpa using exec_acceptJump opts dfa env _ (hused _ hmem) m
  · simp [hlast, hv]
    simpa [List.getElem?_eq_getElem hv] using exec_acceptJump opts dfa env _ (hused _ hmem) m

theorem exec_emitAccept (hused : ∀ a ∈ acc, (dfa.label a.state).used = true)
    (hcg : opts.computedGotos = true → opts.codeModel = .gotoLabel) (v : Nat) (hv : v < acc.length)
    (m : Mem) (hm : m.get .yyaccept = some (v : Int)) :
    (exec env (emitAccept opts dfa acc) m).dropTables =
      (acceptOutcome opts dfa env (acc.getD v default) (restoreMem m)).dropTables := by
  have hm' : (restoreMem m).get .yyaccept = some (v : Int) := by simp [restoreMem, Mem.setPos, hm]
  have hmem : acc.getD v default ∈ acc := by simp [List.getElem?_eq_getElem hv]
  unfold emitAccept
  dsimp only
  rw [if_neg (by omega), exec_append, exec_genRestore, Outcome.bind_next]
  by_cases h1 : acc.length = 1
  · rw [if_pos h1]
    obtain rfl : v = 0 := by omega
    rw [exec_acceptJump opts dfa env _ (hused _ hmem)]
  rw [if_neg h1]
  by_cases htab : (opts.computedGotos && decide (opts.computedGotosThreshold ≤ acc.length) &&
      !acc.any fun x => decide (x.tags ≠ tcid0)) = true
  · -- the computed-goto table
    rw [if_pos htab]
    have hcgt : opts.computedGotos = true := by simp_all
    have htag : acc[v].tags = tcid0 := by
      simp only [Bool.and_eq_true, Bool.not_eq_true', List.any_eq_false] at htab
      simpa using htab.2 _ (List.getElem_mem hv)
    have hm'' : ((restoreMem m).vars .yyaccept).pos = some (v : Int) := hm'
    simp [exec_cons, step, Expr.eval, Mem.get, hm'', tableExit, acceptOutcome, htag, hcg hcgt,
      stateExit, Outcome.dropTables, Mem.dropTables, List.getElem?_eq_getElem hv, Int.ofNat_nonneg]
  rw [if_neg htab]
  by_cases hb : (opts.nestedIfs || decide (acc.length = 2)) = true
  · rw [if_pos hb, exec_emitAcceptBinary opts dfa env acc hused 0 (acc.length - 1) v (Nat.zero_le _)
      (by omega) (by omega) _ hm']
  · rw [if_neg hb, exec_acceptSwitch opts dfa env acc hused v hv _ hm']

theorem emitAccept_dispatch (hused : ∀ a ∈ acc, (dfa.label a.state).used = true)
    (hcg : opts.computedGotos = true → opts.codeModel = .gotoLabel) (v : Nat) (hv : v < acc.length)
    (m : Mem) (hm : m.get .yyaccept = some (v : Int)) :
    (exec env (emitAccept opts dfa acc) m).dropTables =
      (acceptOutcome opts dfa env (acc.getD v default) (restoreMem m)).dropTables ∧
    ∀ l r, l ≤ r → ifLeaves (emitAcceptBinary opts dfa acc l r) =
      (List.range' l (r + 1 - l)).map fun i => genGoto opts dfa none (acceptJump (acc.getD i default)) :=
  ⟨exec_emitAccept opts dfa env acc hused hcg v hv m hm, ifLeaves_emitAcceptBinary opts dfa acc⟩

end

def threeAccepts : List AcceptTrans := [⟨1, tcid0⟩, ⟨2, tcid0⟩, ⟨3, tcid0⟩]

theorem emitAccept_dispatch_three :
    (∀ a ∈ threeAccepts, (allUsedDfa.label a.state).used = true) ∧
    ((default : Opts).computedGotos = true → (default : Opts).codeModel = .gotoLabel) ∧
    1 < threeAccepts.length ∧ ((default : Mem).setPos .yyaccept (some 1)).get .yyaccept = some 1 ∧
    (exec default (emitAccept default allUsedDfa threeAccepts) ((default : Mem).setPos .yyaccept (some 1))).dropTables =
      (acceptOutcome default allUsedDfa default (threeAccepts.getD 1 default)
        (restoreMem ((default : Mem).setPos .yyaccept (some 1)))).dropTables ∧
    ∀ l r, l ≤ r → ifLeaves (emitAcceptBinary default allUsedDfa threeAccepts l r) =
      (List.range' l (r + 1 - l)).map fun i =>
        genGoto default allUsedDfa none (acceptJump (threeAccepts.getD i default)) := by
  have hused : ∀ a ∈ threeAccepts, (allUsedDfa.label a.state).used = true := by decide
  have hcg : (default : Opts).computedGotos = true → (default : Opts).codeModel = .gotoLabel :=
    fun h => absurd h (by decide)
  exact ⟨hused, hcg, by decide, rfl,
    emitAccept_dispatch default allUsedDfa default threeAccepts hused hcg 1 (by decide) _ rfl⟩

end Re2cCodegen.Accept
