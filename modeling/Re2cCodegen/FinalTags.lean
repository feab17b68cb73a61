import Re2cCodegen.TagActions

/-! Final tags: the prelude `gen_fintags` emits before a rule's action. It copies tag
variables into the final slots (`yypmatch` elements and named tags), derives fixed tags
from their base, and restores the trailing context. -/

namespace Re2cCodegen.FinalTags

open Re2cCodegen.Options Re2cCodegen.Dfa Re2cCodegen.Output

/-- `expand_fintags`: a named tag has one slot, a capture tag the `yypmatch` elements
`lsub, lsub + 2, ...` up to `hsub`, a trailing tag none. -/
def expandFintags (tag : Tag) : List Var :=
  if tag.trailing then []
  else if !tag.capture then [.fin (.named tag.name)]
  else (List.range' tag.lsub ((tag.hsub + 2 - tag.lsub) / 2) 2).map fun i => .fin (.pmatch i)

theorem expandFintags_fin (tag : Tag) : ∀ v ∈ expandFintags tag, ∃ s, v = .fin s := by
  unfold expandFintags
  split_ifs <;> simp

def genShift (shift : Int) (tag : Option Var) (history : Bool) : List Code :=
  if shift = 0 then [] else [.shift tag history shift]

def genAssignManyToFirst : List Var → List Code
  | first :: rest@(_ :: _) => [.assign rest (.var first)]
  | _ => []

/-- The four statement lists `gen_fintags` fills, and the base tag chosen to hold the
no-match value under the custom API. -/
structure FinOps where
  varops : List Code
  fixops : List Code
  trailops : List Code
  fixpostops : List Code
  negtag : Option Var

/-- The body of the loop of `gen_fintags` for tag `t`. -/
def genFintag (opts : Opts) (dfa : Adfa) (ops : FinOps) (t : Nat) : FinOps :=
  let generic := opts.api == .custom
  let tag := dfa.tags t
  if tag.fictive then ops else
  let fintags := expandFintags tag
  if !tag.fixed then
    let expr := Var.tag (dfa.finvers t) tag.history
    if tag.trailing then
      let notag := dfa.oldstyleCtxmarker
      { ops with trailops := ops.trailops ++
          if generic then [.restoreCtx (if notag then none else some expr)]
          else [.assign [.cursor] (.var (if notag then .ctxmarker else expr))] }
    else { ops with varops := ops.varops ++ [.assign fintags (.var expr)] }
  else
    let dist : Int := tag.dist
    let fixedOnCursor := tag.base.isNone
    let base : Var := match tag.base with
      | none => .cursor
      | some b => .tag (dfa.finvers b) tag.history
    if tag.trailing then
      { ops with trailops := ops.trailops ++
          if generic then
            (if fixedOnCursor then [] else [.restoreCtx (some base)]) ++ genShift (-dist) none false
          else if fixedOnCursor then [.sub .cursor dist]
          else [.assign [.cursor] (if dist > 0 then .minus (.var base) dist else .var base)] }
    else match fintags with
      | [] => ops
      | first :: _ =>
        if generic then
          if fixedOnCursor then
            { ops with fixops := ops.fixops ++ (.setTag false false first ::
                genShift (-dist) (some first) false ++ genAssignManyToFirst fintags) }
          else if dist = 0 then
            { ops with fixops := ops.fixops ++ [.assign fintags (.var base)] }
          else if tag.toplevel then
            { ops with fixops := ops.fixops ++ (.assign [first] (.var base) ::
                genShift (-dist) (some first) false ++ genAssignManyToFirst fintags) }
          else
            -- set the first slot to the base now; shift it once a base tag holds `NULL`
            let negtag := ops.negtag.getD base
            { ops with
              negtag := some negtag
              fixops := ops.fixops ++ [.assign [first] (.var base)]
              fixpostops := ops.fixpostops ++
                [.ifte (.cmp .ne (.var first) (.var negtag)) (genShift (-dist) (some first) false) []] }
        else
          if dist = 0 then
            { ops with fixops := ops.fixops ++ [.assign fintags (.var base)] }
          else if tag.toplevel then
            { ops with fixops := ops.fixops ++ [.assign fintags (.minus (.var base) dist)] }
          else
            -- if the base tag is `NULL` the fixed tag is `NULL` too
            { ops with fixops := ops.fixops ++ ([.assign [first] (.var base),
                .ifte (.cmp .ne (.var base) .null) [.sub first dist] []] ++
                genAssignManyToFirst fintags) }

def genFintags (opts : Opts) (dfa : Adfa) (rule : Rule) : List Code :=
  let ops := (List.range' rule.ltag (rule.htag - rule.ltag)).foldl (genFintag opts dfa)
    ⟨[], [], [], [], none⟩
  (if rule.ncap > 0 then [.assign [.fin .nmatch] (.num rule.ncap)] else []) ++
    ops.varops ++ ops.fixops ++ ops.trailops ++
    match ops.negtag with
    | some negtag =>
      [.text "/* materialize no-match value */", .setTag true false negtag] ++ ops.fixpostops
    | none => []

def innerFixedDfa : Adfa :=
  { (default : Adfa) with
    tags := fun t => if t = 0 then
        { name := "", lsub := 4, hsub := 6, base := some 1, dist := 1, fictive := false,
          trailing := false, capture := true, fixed := true, history := false, toplevel := false }
      else
        { name := "", lsub := 3, hsub := 7, base := none, dist := 0, fictive := false,
          trailing := false, capture := true, fixed := false, history := false, toplevel := false }
    finvers := fun t => if t = 1 then 5 else 0 }

def innerFixedRule : Rule := { ltag := 0, htag := 2, ncap := 4, semact := default }

def innerFixedMem : Mem :=
  ((default : Mem).setPos (.tag 5 false) (some 10)).setPos .cursor (some 12)
    |>.setPos (.fin (.pmatch 6)) (some 0)

theorem genFintags_custom_inner_slot_unset :
    (exec default (genFintags { (default : Opts) with api := .custom } innerFixedDfa innerFixedRule)
        innerFixedMem).mem.get (.fin (.pmatch 4)) = some 9 ∧
    (exec default (genFintags { (default : Opts) with api := .custom } innerFixedDfa innerFixedRule)
        innerFixedMem).mem.get (.fin (.pmatch 6)) = some 0 ∧
    (exec default (genFintags default innerFixedDfa innerFixedRule)
        innerFixedMem).mem.get (.fin (.pmatch 6)) = some 9 := by
  decide


/-! Under the default API the prelude gives every slot of each tag of the rule that is not
fictive the tag's value, provided distinct tags have distinct slots; it changes nothing but
those slots, `yynmatch` and the cursor. -/

/-- The value of tag `t` once the rule matched: the final version of a variable tag; for a
fixed tag, its base (the cursor, or the final version of the base tag) less the distance, or
`NULL` if the base is `NULL`. `gen_fintags` checks for a `NULL` base of a nested tag; for a
top-level tag it subtracts unchecked, and a `NULL` base is read as `NULL` here. -/
def finPos (dfa : Adfa) (m : Mem) (t : Nat) : Option Int :=
  let tag := dfa.tags t
  if tag.fixed then
    (m.get (match tag.base with
      | none => .cursor
      | some b => .tag (dfa.finvers b) tag.history)).map (· - (tag.dist : Int))
  else m.get (.tag (dfa.finvers t) tag.history)

theorem finPos_congr {dfa : Adfa} {m m' : Mem}
    (h : ∀ w, (∀ s, w ≠ .fin s) → m'.vars w = m.vars w) (t : Nat) :
    finPos dfa m' t = finPos dfa m t := by
  have hc : m'.get .cursor = m.get .cursor := congrArg Val.pos (h _ nofun)
  have ht : ∀ v k, m'.get (.tag v k) = m.get (.tag v k) := fun _ _ => congrArg Val.pos (h _ nofun)
  dsimp only [finPos]
  cases (dfa.tags t).base <;> simp only [hc, ht]

theorem nmatch_not_mem_expandFintags (tag : Tag) : Var.fin .nmatch ∉ expandFintags tag := by
  unfold expandFintags
  split_ifs <;> simp

theorem vars_assign_of_not_mem {ls : List Var} {w : Var} (h : w ∉ ls) (x : Val) (m : Mem) :
    (m.assign ls x).vars w = m.vars w := by
  induction ls generalizing m with
  | nil => rfl
  | cons l ls ih =>
    rw [List.mem_cons, not_or] at h
    exact (ih h.2 _).trans (Function.update_noteq h.1 _ _)

theorem get_assign_of_mem {ls : List Var} {w : Var} (h : w ∈ ls) (x : Val) (m : Mem) :
    (m.assign ls x).get w = x.pos := by
  induction ls generalizing m with
  | nil => cases h
  | cons l ls ih =>
    by_cases hw : w ∈ ls
    · exact ih hw _
    · show ((m.set l x).assign ls x).get w = x.pos
      rw [Mem.get, vars_assign_of_not_mem hw, (List.mem_cons.1 h).resolve_right hw]
      simp [Mem.get]

theorem assign_eq_vars (ls : List Var) (x : Val) (m : Mem) :
    ∃ vs, m.assign ls x = { m with vars := vs } := by
  induction ls generalizing m with
  | nil => exact ⟨m.vars, rfl⟩
  | cons l ls ih => exact ih (m.set l x)

theorem val_var_pos (env : Env) (m : Mem) (w : Var) : ((Expr.var w).val env m).pos = m.get w := by
  cases w <;> rfl

def SetsFin (env : Env) (dfa : Adfa) (b : List Code) (ts : List Nat) : Prop :=
  ∀ m, ∃ m', exec env b m = .next m' ∧ (∃ vs, m' = { m with vars := vs }) ∧
    (∀ t ∈ ts, ∀ v ∈ expandFintags (dfa.tags t), m'.get v = finPos dfa m t) ∧
    ∀ w, (∀ t ∈ ts, w ∉ expandFintags (dfa.tags t)) → m'.vars w = m.vars w

/-- Run from any memory, the statements `b` end normally having written `YYCURSOR` alone. -/
def SetsCursor (env : Env) (b : List Code) : Prop :=
  ∀ m, ∃ x, exec env b m = .next (m.set .cursor x)

namespace SetsFin

variable {env : Env} {dfa : Adfa}

theorem nil_of_slots (ts : List Nat) (h : ∀ t ∈ ts, expandFintags (dfa.tags t) = []) :
    SetsFin env dfa [] ts := fun m =>
  ⟨m, rfl, ⟨m.vars, rfl⟩, fun t ht v hv => by simp [h t ht] at hv, fun _ _ => rfl⟩

theorem append {b b' : List Code} {ts ts' : List Nat} (h : SetsFin env dfa b ts)
    (h' : SetsFin env dfa b' ts')
    (hd : ∀ t ∈ ts, ∀ t' ∈ ts', ∀ v ∈ expandFintags (dfa.tags t'), v ∉ expandFintags (dfa.tags t)) :
    SetsFin env dfa (b ++ b') (ts ++ ts') := by
  intro m
  obtain ⟨m1, e1, ⟨v1, rfl⟩, s1, f1⟩ := h m
  obtain ⟨m2, e2, ⟨v2, rfl⟩, s2, f2⟩ := h' _
  have hfin : ∀ w, (∀ s, w ≠ .fin s) → v1 w = m.vars w := fun w hw =>
    f1 w fun t _ hwt => by obtain ⟨s, rfl⟩ := expandFintags_fin _ w hwt; exact hw s rfl
  refine ⟨_, by rw [exec_append, e1, Outcome.bind_next, e2], ⟨v2, rfl⟩, fun t ht v hv => ?_,
    fun w hw => ?_⟩
  · rcases List.mem_append.1 ht with ht | ht
    · rw [← s1 t ht v hv]
      exact congrArg Val.pos (f2 v fun t' ht' hv' => hd t ht t' ht' v hv' hv)
    · rw [s2 t ht v hv, finPos_congr hfin]
  · rw [f2 w fun t ht => hw t (List.mem_append_right _ ht),
      f1 w fun t ht => hw t (List.mem_append_left _ ht)]

theorem assign_slots {t : Nat} {ls : List Var} {e : Expr} (hs : expandFintags (dfa.tags t) = ls)
    (he : ∀ m, (e.val env m).pos = finPos dfa m t) : SetsFin env dfa [.assign ls e] [t] := fun m =>
  ⟨_, rfl, assign_eq_vars ls _ m, fun t' ht v hv => by
    obtain rfl := List.mem_singleton.1 ht
    rw [get_assign_of_mem (hs ▸ hv), he],
   fun w hw => vars_assign_of_not_mem (hs ▸ hw t (List.mem_singleton_self t)) _ m⟩

theorem exec_nestedFirst (env : Env) {s : Slot} {base : Var} (dist : Int) (hbase : ∀ s, base ≠ .fin s)
    (m : Mem) : ∃ m', exec env [.assign [.fin s] (.var base),
        .ifte (.cmp .ne (.var base) .null) [.sub (.fin s) dist] []] m = .next m' ∧
      (∃ vs, m' = { m with vars := vs }) ∧ m'.get (.fin s) = (m.get base).map (· - dist) ∧ ∀ w, w ≠ .fin s → m'.vars w = m.vars w := by
  have hb : (m.set (.fin s) ((Expr.var base).val env m)).get base = m.get base := by
    simp [hbase s]
  cases hx : m.get base with
  | none =>
    refine ⟨m.set (.fin s) ((Expr.var base).val env m), ?_, ⟨_, rfl⟩, by simp [val_var_pos, hx], ?_⟩
    · simp [step, Cond.eval, Expr.eval, hb, hx, Cmp.holds, Mem.assign]
    · intro w hw
      simp [hw]
  | some p =>
    refine ⟨(m.set (.fin s) ((Expr.var base).val env m)).shift (.fin s) (-dist), ?_, ⟨_, rfl⟩, ?_, ?_⟩
    · simp [step, Cond.eval, Expr.eval, hb, hx, Cmp.holds, Mem.assign]
    · simp [Mem.shift, val_var_pos, hx, Int.sub_eq_add_neg]
    · intro w hw
      simp [Mem.shift, hw]

theorem exec_genAssignManyToFirst (first : Var) (rest : List Var) (m : Mem) :
    exec env (genAssignManyToFirst (first :: rest)) m =
      .next (m.assign rest ((Expr.var first).val env m)) := by
  cases rest <;> rfl

theorem nested_slots {t : Nat} {first : Var} {rest : List Var} {base : Var} {dist : Int}
    (hs : expandFintags (dfa.tags t) = first :: rest) (hbase : ∀ s, base ≠ .fin s)
    (hpos : ∀ m, finPos dfa m t = (m.get base).map (· - dist)) :
    SetsFin env dfa ([.assign [first] (.var base), .ifte (.cmp .ne (.var base) .null)
      [.sub first dist] []] ++ genAssignManyToFirst (first :: rest)) [t] := by
  intro m
  obtain ⟨s, rfl⟩ := expandFintags_fin _ first (hs ▸ List.mem_cons_self _ _)
  obtain ⟨m1, e1, hv1, g1, f1⟩ := exec_nestedFirst env dist hbase m
  refine ⟨_, by rw [exec_append, e1, Outcome.bind_next, exec_genAssignManyToFirst],
    by obtain ⟨v1, rfl⟩ := hv1; exact assign_eq_vars rest _ _, fun t' ht v hv => ?_, fun w hw => ?_⟩
  · obtain rfl := List.mem_singleton.1 ht
    rw [hs] at hv
    have hget : (m1.assign rest ((Expr.var (.fin s)).val env m1)).get v = m1.get (.fin s) := by
      by_cases hr : v ∈ rest
      · rw [get_assign_of_mem hr, val_var_pos]
      · rw [Mem.get, vars_assign_of_not_mem hr, (List.mem_cons.1 hv).resolve_right hr]; rfl
    rw [hget, g1, hpos]
  · have hw' := hw t (List.mem_singleton_self t)
    rw [hs, List.mem_cons, not_or] at hw'
    rw [vars_assign_of_not_mem hw'.2, f1 w hw'.1]

end SetsFin

theorem SetsCursor.nil (env : Env) : SetsCursor env [] := fun m =>
  ⟨m.vars .cursor, by rw [Mem.set_self]; rfl⟩

theorem SetsCursor.append {env : Env} {b b' : List Code} (h : SetsCursor env b)
    (h' : SetsCursor env b') : SetsCursor env (b ++ b') := fun m => by
  obtain ⟨x, hx⟩ := h m
  obtain ⟨y, hy⟩ := h' (m.set .cursor x)
  exact ⟨y, by rw [exec_append, hx, Outcome.bind_next, hy]; simp [Mem.set]⟩

def keptVar (tag : Tag) : Bool := !tag.fictive && !tag.trailing && !tag.fixed

def keptFix (tag : Tag) : Bool := !tag.fictive && !tag.trailing && tag.fixed

/-- What the loop of `gen_fintags` has built once it has passed the tags `done`, under the
default API: no base chosen for the no-match value, the slots of the variable and of the
fixed tags set by `varops` and `fixops`, and `trailops` moving the cursor only. -/
structure FinInv (env : Env) (dfa : Adfa) (ops : FinOps) (done : List Nat) : Prop where
  negtag : ops.negtag = none
  fixpostops : ops.fixpostops = []
  varops : SetsFin env dfa ops.varops (done.filter fun t => keptVar (dfa.tags t))
  fixops : SetsFin env dfa ops.fixops (done.filter fun t => keptFix (dfa.tags t))
  trailops : SetsCursor env ops.trailops

namespace FinInv

variable {env : Env} {dfa : Adfa} {ops : FinOps} {done : List Nat} {t : Nat}

theorem init : FinInv env dfa ⟨[], [], [], [], none⟩ [] :=
  ⟨rfl, rfl, SetsFin.nil_of_slots _ nofun, SetsFin.nil_of_slots _ nofun, SetsCursor.nil env⟩

theorem trail (hi : FinInv env dfa ops done) (hv : keptVar (dfa.tags t) = false)
    (hf : keptFix (dfa.tags t) = false) {T : List Code} (hT : SetsCursor env T) :
    FinInv env dfa { ops with trailops := ops.trailops ++ T } (done ++ [t]) where
  negtag := hi.negtag
  fixpostops := hi.fixpostops
  varops := by simpa [hv] using hi.varops
  fixops := by simpa [hf] using hi.fixops
  trailops := hi.trailops.append hT

theorem var (hi : FinInv env dfa ops done) (hv : keptVar (dfa.tags t) = true)
    (hf : keptFix (dfa.tags t) = false)
    (hd : ∀ t' ∈ done, ∀ v ∈ expandFintags (dfa.tags t), v ∉ expandFintags (dfa.tags t'))
    {V : List Code} (hV : SetsFin env dfa V [t]) :
    FinInv env dfa { ops with varops := ops.varops ++ V } (done ++ [t]) where
  negtag := hi.negtag
  fixpostops := hi.fixpostops
  varops := by
    simpa [hv] using hi.varops.append hV fun t1 h1 t2 h2 => by
      obtain rfl := List.mem_singleton.1 h2
      exact hd t1 (List.mem_filter.1 h1).1
  fixops := by simpa [hf] using hi.fixops
  trailops := hi.trailops

theorem fix (hi : FinInv env dfa ops done) (hv : keptVar (dfa.tags t) = false)
    (hf : keptFix (dfa.tags t) = true)
    (hd : ∀ t' ∈ done, ∀ v ∈ expandFintags (dfa.tags t), v ∉ expandFintags (dfa.tags t'))
    {F : List Code} (hF : SetsFin env dfa F [t]) :
    FinInv env dfa { ops with fixops := ops.fixops ++ F } (done ++ [t]) where
  negtag := hi.negtag
  fixpostops := hi.fixpostops
  varops := by simpa [hv] using hi.varops
  fixops := by
    simpa [hf] using hi.fixops.append hF fun t1 h1 t2 h2 => by
      obtain rfl := List.mem_singleton.1 h2
      exact hd t1 (List.mem_filter.1 h1).1
  trailops := hi.trailops

theorem fixed (hi : FinInv env dfa ops done) (hv : keptVar (dfa.tags t) = false)
    (hf : keptFix (dfa.tags t) = true)
    (hd : ∀ t' ∈ done, ∀ v ∈ expandFintags (dfa.tags t), v ∉ expandFintags (dfa.tags t'))
    {first : Var} {rest : List Var} {base : Var} {dist : Int} {top : Bool}
    (hs : expandFintags (dfa.tags t) = first :: rest) (hbase : ∀ s, base ≠ .fin s)
    (hpos : ∀ m, finPos dfa m t = (m.get base).map (· - dist)) :
    FinInv env dfa
      (if dist = 0 then { ops with fixops := ops.fixops ++ [.assign (first :: rest) (.var base)] }
      else if top then
        { ops with fixops := ops.fixops ++ [.assign (first :: rest) (.minus (.var base) dist)] }
      else { ops with fixops := ops.fixops ++ ([.assign [first] (.var base),
        .ifte (.cmp .ne (.var base) .null) [.sub first dist] []] ++
          genAssignManyToFirst (first :: rest)) })
      (done ++ [t]) := by
  split_ifs with h0
  · refine hi.fix hv hf hd (SetsFin.assign_slots hs fun m => ?_)
    rw [val_var_pos, hpos, h0]
    simp
  · exact hi.fix hv hf hd (SetsFin.assign_slots hs fun m => (hpos m).symm)
  · exact hi.fix hv hf hd (SetsFin.nested_slots hs hbase hpos)

end FinInv

section Default

variable {opts : Opts} {env : Env} {dfa : Adfa}

theorem finInv_genFintag (hapi : opts.api = .default) {ops : FinOps} {done : List Nat} {t : Nat}
    (hi : FinInv env dfa ops done)
    (hd : ∀ t' ∈ done, ∀ v ∈ expandFintags (dfa.tags t), v ∉ expandFintags (dfa.tags t')) :
    FinInv env dfa (genFintag opts dfa ops t) (done ++ [t]) := by
  have hgen : (opts.api == .custom) = false := by rw [hapi]; rfl
  simp only [genFintag, hgen, Bool.false_eq_true, ↓reduceIte]
  cases hfi : (dfa.tags t).fictive
  case true =>
    have := hi.trail (t := t) (T := []) (by simp [keptVar, hfi]) (by simp [keptFix, hfi])
      (SetsCursor.nil env)
    rwa [List.append_nil] at this
  cases hfx : (dfa.tags t).fixed <;> cases htr : (dfa.tags t).trailing <;>
    simp only [Bool.not_false, Bool.not_true, Bool.false_eq_true, ↓reduceIte]
  · -- a variable tag
    exact hi.var (by simp [keptVar, hfi, hfx, htr]) (by simp [keptFix, hfx]) hd
      (SetsFin.assign_slots rfl fun m => by simp [finPos, hfx, val_var_pos])
  · -- a variable trailing tag
    exact hi.trail (by simp [keptVar, htr]) (by simp [keptFix, htr]) fun m => ⟨_, rfl⟩
  · -- a fixed tag
    have hkv : keptVar (dfa.tags t) = false := by simp [keptVar, hfx]
    have hkf : keptFix (dfa.tags t) = true := by simp [keptFix, hfi, hfx, htr]
    cases hs : expandFintags (dfa.tags t) with
    | nil =>
      have := hi.fix hkv hkf hd (SetsFin.nil_of_slots [t] (by simpa using hs))
      rwa [List.append_nil] at this
    | cons first rest =>
      cases hb : (dfa.tags t).base <;>
        exact hi.fixed hkv hkf hd hs nofun fun m => by simp [finPos, hfx, hb]
  · -- a fixed trailing tag
    exact hi.trail (by simp [keptVar, htr]) (by simp [keptFix, htr])
      (by split <;> exact fun m => ⟨_, rfl⟩)

theorem finInv_foldl (hapi : opts.api = .default) (ts : List Nat) :
    ∀ {ops : FinOps} {done : List Nat}, FinInv env dfa ops done →
      (done ++ ts).Pairwise (fun t t' => ∀ v ∈ expandFintags (dfa.tags t'),
        v ∉ expandFintags (dfa.tags t)) →
      FinInv env dfa (ts.foldl (genFintag opts dfa) ops) (done ++ ts) := by
  induction ts with
  | nil => intro ops done hi _; rwa [List.append_nil]
  | cons t ts ih =>
    intro ops done hi hp
    rw [List.append_cons] at hp ⊢
    have hdone := (List.pairwise_append.1 (List.pairwise_append.1 hp).1).2.2
    exact ih (finInv_genFintag hapi hi fun t' ht' => hdone t' ht' t (List.mem_singleton_self t)) hp

theorem mem_kept {ts : List Nat} {t : Nat} :
    t ∈ ts.filter (fun t => keptVar (dfa.tags t)) ++ ts.filter (fun t => keptFix (dfa.tags t)) ↔
      t ∈ ts ∧ (dfa.tags t).fictive = false ∧ (dfa.tags t).trailing = false := by
  simp only [List.mem_append, List.mem_filter, keptVar, keptFix]
  cases (dfa.tags t).fictive <;> cases (dfa.tags t).trailing <;> cases (dfa.tags t).fixed <;> simp

theorem trailing_of_mem_expandFintags {tag : Tag} {v : Var} (hv : v ∈ expandFintags tag) :
    tag.trailing = false := by
  cases h : tag.trailing
  · rfl
  · simp [expandFintags, h] at hv

theorem FinInv.exec_ops {ops : FinOps} {done : List Nat} (hi : FinInv env dfa ops done)
    (hd : ∀ t ∈ done, ∀ t' ∈ done, t ≠ t' →
      ∀ v ∈ expandFintags (dfa.tags t), v ∉ expandFintags (dfa.tags t')) (m : Mem) :
    ∃ (m' : Mem) (x : Val), exec env (ops.varops ++ ops.fixops ++ ops.trailops) m =
      .next (m'.set .cursor x) ∧ (∃ vs, m' = { m with vars := vs }) ∧
      (∀ t ∈ done, (dfa.tags t).fictive = false →
        ∀ v ∈ expandFintags (dfa.tags t), m'.get v = finPos dfa m t) ∧
      ∀ w, (∀ t ∈ done, (dfa.tags t).fictive = false → w ∉ expandFintags (dfa.tags t)) →
        m'.vars w = m.vars w := by
  have hdisj : ∀ t1 ∈ done.filter (fun t => keptVar (dfa.tags t)),
      ∀ t2 ∈ done.filter (fun t => keptFix (dfa.tags t)),
      ∀ v ∈ expandFintags (dfa.tags t2), v ∉ expandFintags (dfa.tags t1) := by
    intro t1 h1 t2 h2
    rw [List.mem_filter] at h1 h2
    refine hd t2 h2.1 t1 h1.1 fun h => ?_
    subst h
    simp only [keptVar, keptFix, Bool.and_eq_true, Bool.not_eq_true'] at h1 h2
    exact Bool.false_ne_true (h1.2.2.symm.trans h2.2.2)
  obtain ⟨m2, e2, v2, s2, f2⟩ := hi.varops.append hi.fixops hdisj m
  obtain ⟨x, e3⟩ := hi.trailops m2
  refine ⟨m2, x, by rw [exec_append, e2, Outcome.bind_next, e3], v2, fun t ht hfi v hv => ?_,
    fun w hw => f2 w fun t ht => ?_⟩
  · exact s2 t (mem_kept.2 ⟨ht, hfi, trailing_of_mem_expandFintags hv⟩) v hv
  · obtain ⟨ht, hfi, -⟩ := mem_kept.1 ht
    exact hw t ht hfi

theorem exec_nmatch (rule : Rule) (m : Mem) :
    ∃ m', exec env (if rule.ncap > 0 then [Code.assign [.fin .nmatch] (.num rule.ncap)] else []) m =
      .next m' ∧ (∃ vs, m' = { m with vars := vs }) ∧ m'.get (.fin .nmatch) =
        (if rule.ncap > 0 then some (rule.ncap : Int) else m.get (.fin .nmatch)) ∧
      ∀ w, w ≠ .fin .nmatch → m'.vars w = m.vars w := by
  split
  · exact ⟨_, rfl, ⟨_, rfl⟩, by simp [Mem.assign, Expr.val, Expr.eval],
      fun w hw => by simp [Mem.assign, hw]⟩
  · exact ⟨m, rfl, ⟨m.vars, rfl⟩, rfl, fun _ _ => rfl⟩

theorem genFintags_default_spec (hapi : opts.api = .default) (rule : Rule)
    (hslots : ∀ t t', rule.ltag ≤ t → t < rule.htag → rule.ltag ≤ t' → t' < rule.htag → t ≠ t' →
      ∀ v ∈ expandFintags (dfa.tags t), v ∉ expandFintags (dfa.tags t')) (m : Mem) :
    ∃ m', exec env (genFintags opts dfa rule) m = .next m' ∧ (∃ vs, m' = { m with vars := vs }) ∧
      m'.get (.fin .nmatch) = (if rule.ncap > 0 then some (rule.ncap : Int) else m.get (.fin .nmatch)) ∧
      (∀ t, rule.ltag ≤ t → t < rule.htag → (dfa.tags t).fictive = false →
        ∀ v ∈ expandFintags (dfa.tags t), m'.get v = finPos dfa m t) ∧
      ∀ w, w ≠ .cursor → w ≠ .fin .nmatch →
        (∀ t, rule.ltag ≤ t → t < rule.htag → (dfa.tags t).fictive = false →
          w ∉ expandFintags (dfa.tags t)) → m'.vars w = m.vars w := by
  have hmem : ∀ {t}, t ∈ List.range' rule.ltag (rule.htag - rule.ltag) ↔
      rule.ltag ≤ t ∧ t < rule.htag := by
    intro t
    rw [List.mem_range'_1]
    omega
  have hd : ∀ t ∈ List.range' rule.ltag (rule.htag - rule.ltag), ∀ t' ∈ _, t ≠ t' →
      ∀ v ∈ expandFintags (dfa.tags t), v ∉ expandFintags (dfa.tags t') := fun t ht t' ht' =>
    hslots t t' (hmem.1 ht).1 (hmem.1 ht).2 (hmem.1 ht').1 (hmem.1 ht').2
  have hi := finInv_foldl hapi _ (@FinInv.init env dfa)
    ((List.nodup_range' _ _).pairwise_of_forall_ne fun t ht t' ht' hne => hd t' ht' t ht hne.symm)
  rw [List.nil_append] at hi
  dsimp only [genFintags]
  generalize List.foldl (genFintag opts dfa) _ _ = ops at hi ⊢
  obtain ⟨m0, e0, hv0, n0, f0⟩ := @exec_nmatch env rule m
  obtain ⟨m2, x, e2, hv2, s2, f2⟩ := hi.exec_ops hd m0
  have hcur : ∀ w, w ≠ .cursor → (m2.set .cursor x).vars w = m2.vars w := fun w hw =>
    Function.update_noteq hw _ _
  refine ⟨m2.set .cursor x, ?_,
    by obtain ⟨v0, rfl⟩ := hv0; obtain ⟨v2, rfl⟩ := hv2; exact ⟨_, rfl⟩, ?_,
    fun t h1 h2 hfi v hv => ?_, fun w hc hn hw => ?_⟩
  · rw [hi.negtag, List.append_nil, List.append_assoc, List.append_assoc, exec_append, e0,
      Outcome.bind_next, ← List.append_assoc, e2]
  · rw [← n0]
    exact congrArg Val.pos ((hcur (.fin .nmatch) nofun).trans
      (f2 (.fin .nmatch) fun t _ _ => nmatch_not_mem_expandFintags _))
  · obtain ⟨s, rfl⟩ := expandFintags_fin _ v hv
    rw [← finPos_congr fun w hw => f0 w (hw .nmatch), ← s2 t (hmem.2 ⟨h1, h2⟩) hfi _ hv]
    exact congrArg Val.pos (hcur _ nofun)
  · exact (hcur w hc).trans ((f2 w fun t ht => hw t (hmem.1 ht).1 (hmem.1 ht).2).trans (f0 w hn))

theorem exec_genFintags_default (hapi : opts.api = .default) (rule : Rule)
    (hslots : ∀ t t', rule.ltag ≤ t → t < rule.htag → rule.ltag ≤ t' → t' < rule.htag → t ≠ t' →
      ∀ v ∈ expandFintags (dfa.tags t), v ∉ expandFintags (dfa.tags t')) (m : Mem) :
    ∃ m', exec env (genFintags opts dfa rule) m = .next m' ∧
      m'.get (.fin .nmatch) = (if rule.ncap > 0 then some (rule.ncap : Int) else m.get (.fin .nmatch)) ∧
      (∀ t, rule.ltag ≤ t → t < rule.htag → (dfa.tags t).fictive = false →
        ∀ v ∈ expandFintags (dfa.tags t), m'.get v = finPos dfa m t) ∧
      ∀ w, w ≠ .cursor → w ≠ .fin .nmatch →
        (∀ t, rule.ltag ≤ t → t < rule.htag → (dfa.tags t).fictive = false →
          w ∉ expandFintags (dfa.tags t)) → m'.vars w = m.vars w :=
  let ⟨m', e, _, h⟩ := @genFintags_default_spec opts env dfa hapi rule hslots m
  ⟨m', e, h⟩

end Default

theorem exec_genFintags_innerFixed :
    ∃ m', exec default (genFintags default innerFixedDfa innerFixedRule) innerFixedMem = .next m' ∧
      m'.get (.fin .nmatch) = some 4 ∧ m'.get (.fin (.pmatch 4)) = some 9 ∧
      m'.get (.fin (.pmatch 6)) = some 9 := by
  have hslots : ∀ t < 2, ∀ t' < 2, t = t' ∨ ∀ v ∈ expandFintags (innerFixedDfa.tags t),
      v ∉ expandFintags (innerFixedDfa.tags t') := by decide
  obtain ⟨m', e, hn, hs, -⟩ := @exec_genFintags_default default default innerFixedDfa
    rfl innerFixedRule
    (fun t t' _ h1 _ h2 hne => (hslots t h1 t' h2).resolve_left hne) innerFixedMem
  have h0 : finPos innerFixedDfa innerFixedMem 0 = some 9 := by decide
  refine ⟨m', e, hn, ?_, ?_⟩ <;> rw [hs 0 le_rfl (by decide) rfl _ (by decide), h0]

end Re2cCodegen.FinalTags
