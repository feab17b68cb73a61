import Mathlib.Data.List.Basic

/-! `line_source` of the parser: the `#line` directive that names the input file. It doubles
the backslashes of the name by cutting it with `strtok` at every backslash and streaming the
tokens with `\\` between them. -/

namespace Re2cCodegen.LineSource

/-- `strtok(s, "\\")`: the token after the leading backslashes and the text after the backslash
that ends it, where the next call resumes; `NULL` (`none`) when only backslashes are left. -/
def strtok (s : List Char) : Option (List Char) × List Char :=
  match s.dropWhile (· == '\\') with
  | [] => (none, [])
  | t => (some (t.takeWhile (· != '\\')), (t.dropWhile (· != '\\')).drop 1)

theorem strtok_rest_lt {s t r : List Char} (h : strtok s = (some t, r)) : r.length < s.length := by
  unfold strtok at h
  cases hu : s.dropWhile (· == '\\') with
  | nil => simp [hu] at h
  | cons a u =>
    rw [hu] at h
    obtain ⟨-, rfl⟩ := Prod.mk.inj h
    have h1 := (List.dropWhile_suffix (· != '\\') (l := a :: u)).length_le
    have h2 := (List.dropWhile_suffix (· == '\\') (l := s)).length_le
    rw [hu] at h2
    simp only [List.length_drop, List.length_cons] at h1 h2 ⊢
    omega

/-- The `for (;;)` loop of `line_source` from the token it holds: the pieces it streams, a null
`char *` as `none`. -/
def streamTokens (token : Option (List Char)) (rest : List Char) : List (Option (List Char)) :=
  token :: match h : strtok rest with
    | (some t, rest') =>
      have := strtok_rest_lt h
      some ['\\', '\\'] :: streamTokens (some t) rest'
    | (none, _) => []
termination_by rest.length

/-- `line_source`: the pieces it streams and the output line count `oline` after it; nothing
when `iFlag` is set. A null `fileName` is `<stdin>`. -/
def lineSource (iFlag : Bool) (fileName : Option String) (line oline : Nat) :
    List (Option (List Char)) × Nat :=
  if iFlag then ([], oline) else
  let fnamebuf := (fileName.getD "<stdin>").toList
  let first := strtok fnamebuf
  (some ("#line " ++ toString line ++ " \"").toList :: streamTokens first.1 first.2 ++
    [some ("\"\n".toList)], oline + 1)

theorem streamTokens_some {token : Option (List Char)} {rest t r : List Char}
    (h : strtok rest = (some t, r)) :
    streamTokens token rest = token :: some ['\\', '\\'] :: streamTokens (some t) r := by
  rw [streamTokens]
  split <;> simp_all

theorem streamTokens_none {token : Option (List Char)} {rest : List Char}
    (h : (strtok rest).1 = none) : streamTokens token rest = [token] := by
  rw [streamTokens]
  split <;> simp_all

/-! What the directive should carry, and the names for which it does. -/

def escape (f : List Char) : List Char := f.flatMap fun c => if c = '\\' then ['\\', '\\'] else [c]

def cUnescape : List Char → List Char
  | '\\' :: '\\' :: s => '\\' :: cUnescape s
  | c :: s => c :: cUnescape s
  | [] => []

theorem cUnescape_escape (f : List Char) : cUnescape (escape f) = f := by
  induction f with
  | nil => rfl
  | cons c f ih =>
    by_cases hc : c = '\\'
    · subst hc
      simp only [escape, List.flatMap_cons, if_true] at ih ⊢
      rw [List.cons_append, List.cons_append, List.nil_append, cUnescape, ih]
    · simp only [escape, List.flatMap_cons, if_neg hc] at ih ⊢
      rw [List.singleton_append, cUnescape, ih]
      exact fun _ h => absurd h hc

theorem escape_of_not_mem {t : List Char} (h : '\\' ∉ t) : escape t = t := by
  induction t with
  | nil => rfl
  | cons c t ih =>
    simp only [List.mem_cons, not_or] at h
    have ht := ih h.2
    simp only [escape, List.flatMap_cons, if_neg (Ne.symm h.1)] at ht ⊢
    rw [ht]
    rfl

inductive Plain : List Char → Prop
  | piece {t : List Char} : t ≠ [] → '\\' ∉ t → Plain t
  | join {t r : List Char} : t ≠ [] → '\\' ∉ t → Plain r → Plain (t ++ '\\' :: r)

theorem strtok_piece {t : List Char} (ht : t ≠ []) (hb : '\\' ∉ t) (r : List Char)
    (hr : r = [] ∨ r.head? = some '\\') :
    strtok (t ++ r) = (some t, r.drop 1) := by
  obtain ⟨a, t', rfl⟩ := List.exists_cons_of_ne_nil ht
  have hpos : ∀ c ∈ a :: t', (c != '\\') = true := fun c hc => by
    simp only [bne_iff_ne, ne_eq]
    rintro rfl
    exact hb hc
  have hr' : r.takeWhile (· != '\\') = [] ∧ r.dropWhile (· != '\\') = r := by
    rcases hr with rfl | hr
    · exact ⟨rfl, rfl⟩
    · cases r with
      | nil => cases hr
      | cons b r' =>
        simp only [List.head?_cons, Option.some.injEq] at hr
        subst hr
        simp
  have ha : ¬(a == '\\') = true := by simpa using hpos a (List.mem_cons_self _ _)
  simp only [strtok, List.cons_append, List.dropWhile_cons_of_neg (p := (· == '\\')) ha]
  rw [← List.cons_append, List.takeWhile_append_of_pos hpos, List.dropWhile_append_of_pos hpos,
    hr'.1, hr'.2, List.append_nil]

theorem strtok_of_plain {s : List Char} (h : Plain s) : ∃ t r, strtok s = (some t, r) := by
  cases h with
  | piece ht hb => exact ⟨_, _, by simpa using strtok_piece ht hb [] (.inl rfl)⟩
  | @join t r ht hb _ => exact ⟨t, r, strtok_piece ht hb ('\\' :: r) (.inr rfl)⟩

theorem streamTokens_plain {s : List Char} (h : Plain s) :
    ∃ body : List (List Char), streamTokens (strtok s).1 (strtok s).2 = body.map some ∧
      body.flatten = escape s := by
  induction h with
  | @piece t ht hb =>
    have hs := strtok_piece ht hb [] (.inl rfl)
    rw [List.append_nil] at hs
    refine ⟨[t], ?_, by simp [escape_of_not_mem hb]⟩
    rw [hs]
    exact @streamTokens_none (some t) [] rfl
  | @join t r ht hb hr ih =>
    obtain ⟨body, hbody, hflat⟩ := ih
    obtain ⟨t', r', hr'⟩ := strtok_of_plain hr
    rw [hr'] at hbody
    refine ⟨t :: ['\\', '\\'] :: body, ?_, ?_⟩
    · rw [strtok_piece ht hb ('\\' :: r) (.inr rfl)]
      dsimp only [List.drop_succ_cons, List.drop_zero]
      rw [streamTokens_some hr', hbody]
      rfl
    · have ht := escape_of_not_mem hb
      simp only [escape] at ht hflat ⊢
      simp [ht, hflat]

theorem lineSource_escapes (fileName : Option String) (line oline : Nat)
    (h : Plain (fileName.getD "<stdin>").toList) :
    ∃ body : List (List Char), lineSource false fileName line oline =
      (some ("#line " ++ toString line ++ " \"").toList :: body.map some ++ [some ("\"\n".toList)],
        oline + 1) ∧
      cUnescape body.flatten = (fileName.getD "<stdin>").toList := by
  obtain ⟨body, hbody, hflat⟩ := streamTokens_plain h
  exact ⟨body, by simp only [lineSource, hbody]; rfl, by rw [hflat, cUnescape_escape]⟩

theorem lineSource_backslash_pair_and_empty_name :
    lineSource false (some "a\\\\b") 1 0 =
      ([some "#line 1 \"".toList, some ['a'], some ['\\', '\\'], some ['b'], some ("\"\n".toList)], 1) ∧
    cUnescape (['a'] ++ ['\\', '\\'] ++ ['b']) = ['a', '\\', 'b'] ∧
    "a\\\\b".toList = ['a', '\\', '\\', 'b'] ∧
    lineSource false (some "") 1 0 = ([some "#line 1 \"".toList, none, some ("\"\n".toList)], 1) := by
  have h1 : strtok "a\\\\b".toList = (some ['a'], ['\\', 'b']) := by decide
  have h2 : strtok ['\\', 'b'] = (some ['b'], []) := by decide
  refine ⟨?_, by decide, by decide, ?_⟩
  · simp only [lineSource, Option.getD_some, h1, if_false, Bool.false_eq_true]
    rw [streamTokens_some h2, @streamTokens_none (some ['b']) [] rfl]
    rfl
  · simp only [lineSource, Option.getD_some, if_false, Bool.false_eq_true,
      show strtok "".toList = (none, []) from rfl]
    rw [@streamTokens_none none [] rfl]
    rfl

end Re2cCodegen.LineSource
