import Re2cCodegen.States

/-! The states of a DFA laid out in the three code models: blocks of code after their labels
in goto/label mode, cases of the `yystate` switch in loop/switch mode, and mutually recursive
functions in rec/func mode. A state whose label is unused joins the case or the function of
the state before it. -/

namespace Re2cCodegen.Layout

open Re2cCodegen.Options Re2cCodegen.Dfa Re2cCodegen.Output Re2cCodegen.TagActions
  Re2cCodegen.Transitions Re2cCodegen.States

def genDfaAsBlocksWithLabels (opts : Opts) (dfa : Adfa) : List Code :=
  -- entering a DFA with transitions into its initial state must bypass that state's YYSKIP
  (if dfa.initialLabel.used then [.goto (.num dfa.initialLabel.index)] else []) ++
    dfa.states.flatMap (stateCode opts dfa)

/-- The inner loop of `gen_dfa_as_switch_cases`: the states after the current one whose labels
are unused, and the states left. -/
def absorbUnused (dfa : Adfa) (emit : StateId → List Code) : List StateId → List Code × List StateId
  | [] => ([], [])
  | t :: rest =>
    if (dfa.label t).used then ([], t :: rest)
    else let r := absorbUnused dfa emit rest; (emit t ++ r.1, r.2)

theorem absorbUnused_length (dfa : Adfa) (emit : StateId → List Code) (l : List StateId) :
    (absorbUnused dfa emit l).2.length ≤ l.length := by
  induction l with
  | nil => exact Nat.le_refl _
  | cons t rest ih =>
    simp only [absorbUnused]
    split
    · exact Nat.le_refl _
    · exact Nat.le_succ_of_le ih

def switchCases (dfa : Adfa) (emit : StateId → List Code) : List StateId → List (CaseLbl × List Code)
  | [] => []
  | s :: rest =>
    let r := absorbUnused dfa emit rest
    (.number (dfa.label s).index, emit s ++ r.1) :: switchCases dfa emit r.2
termination_by l => l.length
decreasing_by exact Nat.lt_succ_of_le (absorbUnused_length _ _ _)

def genDfaAsSwitchCases (opts : Opts) (dfa : Adfa) : List (CaseLbl × List Code) :=
  switchCases dfa (stateCode opts dfa) dfa.states

/-- A function of rec/func mode: its name, whether its parameters are `params_yych`, which
include `yych`, and its body. -/
structure FnDef where
  name : Fn
  yych : Bool
  body : List Code

/-- The `do ... while` loop of `gen_dfa_as_recursive_functions`: `s` and the states after it
as long as their labels are unused, and the states left. -/
def fnBody (dfa : Adfa) (emit : StateId → List Code) (s : StateId) :
    List StateId → List Code × List StateId
  | [] => (emit s, [])
  | t :: rest =>
    if (dfa.label t).used then (emit s, t :: rest)
    else let r := fnBody dfa emit t rest; (emit s ++ r.1, r.2)

theorem fnBody_length (dfa : Adfa) (emit : StateId → List Code) (s : StateId) (l : List StateId) :
    (fnBody dfa emit s l).2.length ≤ l.length := by
  induction l generalizing s with
  | nil => exact Nat.le_refl _
  | cons t rest ih =>
    simp only [fnBody]
    split
    · exact Nat.le_refl _
    · exact Nat.le_succ_of_le (ih t)

def stateFunctions (dfa : Adfa) (emit : StateId → List Code) (needYych : StateId → Bool) :
    List StateId → List FnDef
  | [] => []
  | s :: rest =>
    let r := fnBody dfa emit s rest
    ⟨.state (dfa.label s).index, needYych s, r.1⟩ :: stateFunctions dfa emit needYych r.2
termination_by l => l.length
decreasing_by exact Nat.lt_succ_of_le (fnBody_length _ _ _ _)

/-- The entry function `yyfn<cond>` of a condition's DFA, which tail-calls its first state. -/
def genCondEntry (dfa : Adfa) : List FnDef :=
  if dfa.cond = "" then []
  else [⟨.cond dfa.cond, false, [.tailcall (.state (dfa.label (dfa.states.headD 0)).index) false]⟩]

def genDfaAsRecursiveFunctions (opts : Opts) (dfa : Adfa) : List FnDef :=
  stateFunctions dfa (stateCode opts dfa) (needYychArg dfa) dfa.states ++ genCondEntry dfa

/-! Both loops cut the state list at the same places. -/

def unused (dfa : Adfa) (t : StateId) : Bool := !(dfa.label t).used

/-- The state list cut before every state with a used label but the first: the states of one
case of the `yystate` switch, or of one function. -/
def groups (dfa : Adfa) : List StateId → List (List StateId)
  | [] => []
  | s :: rest => (s :: rest.takeWhile (unused dfa)) :: groups dfa (rest.dropWhile (unused dfa))
termination_by l => l.length
decreasing_by exact Nat.lt_succ_of_le (List.dropWhile_suffix _).length_le

section

variable (dfa : Adfa) (emit : StateId → List Code)

theorem absorbUnused_eq (l : List StateId) :
    absorbUnused dfa emit l = ((l.takeWhile (unused dfa)).flatMap emit, l.dropWhile (unused dfa)) := by
  induction l with
  | nil => rfl
  | cons t rest ih => by_cases h : (dfa.label t).used <;> simp [absorbUnused, unused, h, ih]

theorem fnBody_eq (s : StateId) (l : List StateId) :
    fnBody dfa emit s l = ((s :: l.takeWhile (unused dfa)).flatMap emit, l.dropWhile (unused dfa)) := by
  induction l generalizing s with
  | nil => simp [fnBody]
  | cons t rest ih => by_cases h : (dfa.label t).used <;> simp [fnBody, unused, h, ih]

theorem switchCases_eq (l : List StateId) :
    switchCases dfa emit l =
      (groups dfa l).map fun g => (.number (dfa.label (g.headD 0)).index, g.flatMap emit) := by
  induction l using groups.induct dfa with
  | case1 => simp [switchCases, groups]
  | case2 s rest ih => rw [switchCases, groups, absorbUnused_eq]; simp [ih]

theorem stateFunctions_eq (needYych : StateId → Bool) (l : List StateId) :
    stateFunctions dfa emit needYych l =
      (groups dfa l).map fun g => ⟨.state (dfa.label (g.headD 0)).index, needYych (g.headD 0), g.flatMap emit⟩ := by
  induction l using groups.induct dfa with
  | case1 => simp [stateFunctions, groups]
  | case2 s rest ih => rw [stateFunctions, groups, fnBody_eq]; simp [ih]

theorem flatten_groups (l : List StateId) : (groups dfa l).flatten = l := by
  induction l using groups.induct dfa with
  | case1 => simp [groups]
  | case2 s rest ih => rw [groups]; simp [ih]

theorem used_of_head_dropWhile {l : List StateId} {t : StateId}
    (h : (l.dropWhile (unused dfa)).head? = some t) : (dfa.label t).used = true := by
  have := List.head?_dropWhile_not (unused dfa) l
  rw [h] at this
  simpa [unused] using this

theorem groups_shape (l : List StateId) : ∀ g ∈ groups dfa l, ∃ s rest, g = s :: rest ∧
    (l.head? = some s ∨ (dfa.label s).used = true) ∧ ∀ t ∈ rest, (dfa.label t).used = false := by
  induction l using groups.induct dfa with
  | case1 => simp [groups]
  | case2 s rest ih =>
    rw [groups]
    intro g hg
    rcases List.mem_cons.1 hg with rfl | hg
    · exact ⟨s, _, rfl, .inl rfl, fun t ht => by simpa [unused] using List.mem_takeWhile_imp ht⟩
    · obtain ⟨s', rest', rfl, hs', hrest'⟩ := ih _ hg
      exact ⟨s', rest', rfl, .inr (hs'.elim (used_of_head_dropWhile dfa) id), hrest'⟩

theorem groups_of_used (l : List StateId) (h : ∀ t ∈ l, (dfa.label t).used = true) :
    groups dfa l = l.map fun t => [t] := by
  induction l with
  | nil => simp [groups]
  | cons s rest ih =>
    have hrest : rest.takeWhile (unused dfa) = [] ∧ rest.dropWhile (unused dfa) = rest := by
      cases rest with
      | nil => exact ⟨rfl, rfl⟩
      | cons t _ => simp [unused, h t (.tail _ (.head _))]
    rw [groups, hrest.1, hrest.2, ih fun t ht => h t (.tail _ ht)]
    rfl

theorem exists_group_head (l : List StateId) {t : StateId} (ht : t ∈ l)
    (hu : l.head? = some t ∨ (dfa.label t).used = true) : ∃ g ∈ groups dfa l, g.head? = some t := by
  induction l using groups.induct dfa with
  | case1 => cases ht
  | case2 s rest ih =>
    rw [groups]
    by_cases hst : s = t
    · exact ⟨_, List.mem_cons_self _ _, by simp [hst]⟩
    have hu : (dfa.label t).used = true := by simpa [hst] using hu
    have hrest : t ∈ rest.dropWhile (unused dfa) := by
      have hnt : t ∉ rest.takeWhile (unused dfa) := fun h => by
        simpa [unused, hu] using List.mem_takeWhile_imp h
      have ht := (List.mem_cons.1 ht).resolve_left (Ne.symm hst)
      rw [← List.takeWhile_append_dropWhile (unused dfa) rest] at ht
      exact (List.mem_append.1 ht).resolve_left hnt
    obtain ⟨g, hg, hh⟩ := ih hrest (.inr hu)
    exact ⟨g, List.mem_cons_of_mem _ hg, hh⟩

theorem heads_groups_sublist (l : List StateId) : List.Sublist ((groups dfa l).map (·.headD 0)) l := by
  induction l using groups.induct dfa with
  | case1 => simp [groups]
  | case2 s rest ih =>
    rw [groups, List.map_cons]
    exact (ih.trans (List.dropWhile_suffix _).sublist).cons₂ s

end

theorem genDfaAsSwitchCases_eq (opts : Opts) (dfa : Adfa) :
    genDfaAsSwitchCases opts dfa = (groups dfa dfa.states).map fun g =>
      (.number (dfa.label (g.headD 0)).index, g.flatMap (stateCode opts dfa)) :=
  switchCases_eq _ _ _

theorem genDfaAsRecursiveFunctions_eq (opts : Opts) (dfa : Adfa) :
    genDfaAsRecursiveFunctions opts dfa = (groups dfa dfa.states).map (fun g =>
      ⟨.state (dfa.label (g.headD 0)).index, needYychArg dfa (g.headD 0),
        g.flatMap (stateCode opts dfa)⟩) ++ genCondEntry dfa := by
  rw [genDfaAsRecursiveFunctions, stateFunctions_eq]

theorem head_mem_of_mem_groups (dfa : Adfa) {l g : List StateId} (hg : g ∈ groups dfa l) :
    g.headD 0 ∈ l := by
  obtain ⟨s, rest, rfl, -⟩ := groups_shape dfa l g hg
  rw [← flatten_groups dfa l]
  exact List.mem_flatten.2 ⟨_, hg, List.mem_cons_self _ _⟩

theorem groups_eq_cons (dfa : Adfa) {l : List StateId} (h : l ≠ []) :
    ∃ rest, groups dfa l = (groups dfa l).headD [] :: rest ∧
      ((groups dfa l).headD []).headD 0 = l.headD 0 := by
  obtain ⟨s, t, rfl⟩ := List.exists_cons_of_ne_nil h
  exact ⟨_, by rw [groups]; rfl, by rw [groups]; rfl⟩

theorem genDfaAsSwitchCases_eq_cons (opts : Opts) (dfa : Adfa) (h : dfa.states ≠ []) :
    ∃ rest, genDfaAsSwitchCases opts dfa = (.number (dfa.label (dfa.states.headD 0)).index,
      ((groups dfa dfa.states).headD []).flatMap (stateCode opts dfa)) :: rest := by
  obtain ⟨rest, hg, hh⟩ := groups_eq_cons dfa h
  refine ⟨rest.map fun g => (.number (dfa.label (g.headD 0)).index, g.flatMap (stateCode opts dfa)), ?_⟩
  rw [genDfaAsSwitchCases_eq]
  conv_lhs => rw [hg]
  rw [List.map_cons, hh]

theorem genDfaAsSwitchCases_number (opts : Opts) (dfa : Adfa) :
    ∀ c ∈ genDfaAsSwitchCases opts dfa, ∃ k : Nat, c.1 = .number k := by
  rw [genDfaAsSwitchCases_eq]
  simp only [List.mem_map]
  rintro _ ⟨g, -, rfl⟩
  exact ⟨_, rfl⟩

/-! Every state is emitted once, in order, in a case or a function numbered by the label of
its group's first state, and every transfer enters such a case or function. -/

def FnDef.ofState (f : FnDef) : Bool :=
  match f.name with
  | .state _ => true
  | _ => false

theorem name_of_mem_genDfaAsRecursiveFunctions {opts : Opts} {dfa : Adfa} {f : FnDef}
    (hf : f ∈ genDfaAsRecursiveFunctions opts dfa) :
    (∃ s ∈ dfa.states, f.name = .state (dfa.label s).index) ∨ f.name = .cond dfa.cond := by
  rw [genDfaAsRecursiveFunctions_eq, List.mem_append, List.mem_map] at hf
  rcases hf with ⟨g, hg, rfl⟩ | hf
  · exact .inl ⟨_, head_mem_of_mem_groups dfa hg, rfl⟩
  · unfold genCondEntry at hf
    split at hf
    · cases hf
    · rw [List.mem_singleton.1 hf]
      exact .inr rfl

theorem find?_state_eq_filter (fns : List FnDef) (n : Nat) :
    fns.find? (·.name == .state n) = (fns.filter FnDef.ofState).find? (·.name == .state n) := by
  rw [List.find?_filter]
  congr 1
  funext f
  cases h : f.name <;> simp [FnDef.ofState, h, Bool.beq_eq_decide_eq]

def EntersGroup (opts : Opts) (dfa : Adfa) (e : Exit) : Prop :=
  ∃ g ∈ groups dfa dfa.states, ∃ t, g.head? = some t ∧ e = stateExit opts.codeModel dfa t

structure GroupedLayout (opts : Opts) (dfa : Adfa) : Prop where
  cases : genDfaAsSwitchCases opts dfa =
    (groups dfa dfa.states).map fun g => (.number (dfa.label (g.headD 0)).index, g.flatMap (stateCode opts dfa))
  functions : genDfaAsRecursiveFunctions opts dfa =
    (groups dfa dfa.states).map (fun g => ⟨.state (dfa.label (g.headD 0)).index,
      needYychArg dfa (g.headD 0), g.flatMap (stateCode opts dfa)⟩) ++ genCondEntry dfa
  cover : (groups dfa dfa.states).flatten = dfa.states
  shape : ∀ g ∈ groups dfa dfa.states, ∃ s rest, g = s :: rest ∧
    (dfa.states.head? = some s ∨ (dfa.label s).used = true) ∧ ∀ t ∈ rest, (dfa.label t).used = false
  /-- In loop/switch and rec/func mode: the transfers of a transition, of the fallback after
  a failed `YYFILL`, and of the resumption after a successful one. -/
  exits : opts.codeModel ≠ .gotoLabel → ∀ env : Env,
    (∀ fromState : Option StateId, (∀ s ∈ fromState, s ∈ dfa.states) → ∀ j : CodeJump,
      j.dest ∈ dfa.states → AllExits env (EntersGroup opts dfa) (genGoto opts dfa fromState j)) ∧
    ∀ s ∈ dfa.states, ∀ jump : Option CodeJump,
      AllExits env (EntersGroup opts dfa) (genFillFalllback opts dfa s jump) ∧
      AllExits env (EntersGroup opts dfa) (genGotoAfterFill opts dfa s jump)

section

variable (opts : Opts) (dfa : Adfa)

theorem entersGroup_of_entersUsed {e : Exit} (h : EntersUsed opts dfa e) : EntersGroup opts dfa e := by
  obtain ⟨t, ht, hu, rfl⟩ := h
  obtain ⟨g, hg, hh⟩ := exists_group_head dfa dfa.states ht (.inr hu)
  exact ⟨g, hg, t, hh, rfl⟩

theorem groupedLayout
    (hF : ∀ s ∈ dfa.states, (dfa.fallback s).1 ∈ dfa.states ∧ (dfa.label (dfa.fallback s).1).used = true)
    (hfs : ∀ s ∈ dfa.states, (dfa.state s).fillState ∈ dfa.states ∧
      (dfa.label (dfa.state s).fillState).used = true) :
    GroupedLayout opts dfa where
  cases := genDfaAsSwitchCases_eq _ _
  functions := genDfaAsRecursiveFunctions_eq _ _
  cover := flatten_groups _ _
  shape := groups_shape _ _
  exits hm env := by
    have up : ∀ {cs}, AllExits env (EntersUsed opts dfa) cs → AllExits env (EntersGroup opts dfa) cs :=
      fun h => h.mono fun _ => entersGroup_of_entersUsed opts dfa
    refine ⟨fun fromState hfrom j hj => ?_, fun s hs jump =>
      ⟨up (exits_genFillFalllback opts dfa env s jump (hF s hs)),
        up (exits_genGotoAfterFill opts dfa env s hm (hF s hs) (hfs s hs) jump)⟩⟩
    cases fromState with
    | none => exact up (exits_genTransition opts dfa env j hj)
    | some s => exact up (exits_genGoto opts dfa env s hm (hF s (hfrom s rfl)) (hfs s (hfrom s rfl)) j hj)

end

theorem flatMap_sublist_flatMap {α β : Type} {f g : α → List β} :
    ∀ {l : List α}, (∀ a ∈ l, List.Sublist (f a) (g a)) → List.Sublist (l.flatMap f) (l.flatMap g)
  | [], _ => List.Sublist.slnil
  | a :: l, h => by
    simp only [List.flatMap_cons]
    exact (h a (List.mem_cons_self _ _)).append (flatMap_sublist_flatMap fun b hb => h b (List.mem_cons_of_mem _ hb))

theorem nodup_group_heads (dfas : List Adfa)
    (h : (dfas.flatMap fun dfa => dfa.states.map fun s => (dfa.label s).index).Nodup) :
    (dfas.flatMap fun dfa => (groups dfa dfa.states).map fun g => (dfa.label (g.headD 0)).index).Nodup :=
  h.sublist <| flatMap_sublist_flatMap fun dfa _ => by
    simpa only [List.map_map] using (heads_groups_sublist dfa dfa.states).map fun s => (dfa.label s).index

section

variable (opts : Opts) (dfas : List Adfa)
  (hlabels : (dfas.flatMap fun dfa => dfa.states.map fun s => (dfa.label s).index).Nodup)
include hlabels

theorem nodup_switchCaseLabels : ((dfas.flatMap (genDfaAsSwitchCases opts)).map (·.1)).Nodup := by
  have : (dfas.flatMap (genDfaAsSwitchCases opts)).map (·.1) =
      (dfas.flatMap fun dfa => (groups dfa dfa.states).map fun g => (dfa.label (g.headD 0)).index).map
        fun n : Nat => CaseLbl.number (n : Int) := by
    simp only [List.map_flatMap, List.map_map, genDfaAsSwitchCases_eq]
    rfl
  rw [this]
  exact (nodup_group_heads dfas hlabels).map fun a b h => by exact_mod_cast CaseLbl.number.inj h

theorem nodup_stateFunctionNames :
    (((dfas.flatMap (genDfaAsRecursiveFunctions opts)).filter FnDef.ofState).map (·.name)).Nodup := by
  have : ((dfas.flatMap (genDfaAsRecursiveFunctions opts)).filter FnDef.ofState).map (·.name) =
      (dfas.flatMap fun dfa => (groups dfa dfa.states).map fun g => (dfa.label (g.headD 0)).index).map
        Fn.state := by
    simp only [List.filter_flatMap, List.map_flatMap, List.map_map]
    refine List.flatMap_congr fun dfa _ => ?_
    rw [genDfaAsRecursiveFunctions_eq]
    unfold genCondEntry
    split <;> simp [List.filter_map, Function.comp_def, FnDef.ofState]
  rw [this]
  exact (nodup_group_heads dfas hlabels).map fun a b h => Fn.state.inj h

end

theorem dfa_groups_layout (opts : Opts) (dfas : List Adfa)
    (hlabels : (dfas.flatMap fun dfa => dfa.states.map fun s => (dfa.label s).index).Nodup)
    (hfallback : ∀ dfa ∈ dfas, ∀ s ∈ dfa.states,
      (dfa.fallback s).1 ∈ dfa.states ∧ (dfa.label (dfa.fallback s).1).used = true)
    (hfill : ∀ dfa ∈ dfas, ∀ s ∈ dfa.states,
      (dfa.state s).fillState ∈ dfa.states ∧ (dfa.label (dfa.state s).fillState).used = true) :
    (∀ dfa ∈ dfas, GroupedLayout opts dfa) ∧
    ((dfas.flatMap (genDfaAsSwitchCases opts)).map (·.1)).Nodup ∧
    (((dfas.flatMap (genDfaAsRecursiveFunctions opts)).filter FnDef.ofState).map (·.name)).Nodup :=
  ⟨fun dfa hd => groupedLayout opts dfa (hfallback dfa hd) (hfill dfa hd),
    nodup_switchCaseLabels opts dfas hlabels, nodup_stateFunctionNames opts dfas hlabels⟩

def tunnelDfa (first n : Nat) : Adfa :=
  { (default : Adfa) with
    state := fun s => { (default : State) with label := ⟨s, s != first + 1⟩, fillState := first },
    states := List.range' first n, fallback := fun _ => (first, tcid0) }

def twoTunnelDfas : List Adfa := [tunnelDfa 0 3, tunnelDfa 3 2]

theorem dfa_groups_layout_tunnel :
    (twoTunnelDfas.flatMap fun dfa => dfa.states.map fun s => (dfa.label s).index).Nodup ∧
    (∀ dfa ∈ twoTunnelDfas, ∀ s ∈ dfa.states,
      (dfa.fallback s).1 ∈ dfa.states ∧ (dfa.label (dfa.fallback s).1).used = true) ∧
    (∀ dfa ∈ twoTunnelDfas, ∀ s ∈ dfa.states,
      (dfa.state s).fillState ∈ dfa.states ∧ (dfa.label (dfa.state s).fillState).used = true) ∧
    (∀ dfa ∈ twoTunnelDfas, GroupedLayout eofLoopOpts dfa) ∧
    ((twoTunnelDfas.flatMap (genDfaAsSwitchCases eofLoopOpts)).map (·.1)).Nodup ∧
    (((twoTunnelDfas.flatMap (genDfaAsRecursiveFunctions eofLoopOpts)).filter FnDef.ofState).map
      (·.name)).Nodup := by
  refine ⟨?h1, ?h2, ?h3, dfa_groups_layout eofLoopOpts twoTunnelDfas ?h1 ?h2 ?h3⟩
  all_goals decide

end Re2cCodegen.Layout
