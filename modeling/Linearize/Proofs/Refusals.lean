import Linearize.Compile.Session
import Linearize.Proofs.Priority

/-!
# Linearize.Proofs.Refusals

Statements that are not encoded. A session does what the encoder says, step by step, and the only
reasons for a refusal are those that can be read off the statement; all of them are found before the
model is touched.
-/

namespace Linearize

def Encoded.parts (e : Encoded) : Model × Var × List Constraint := (e.model, e.indicator, e.rows)

namespace Session

variable {α β : Type} {x : Session Model α} {f : α → Session Model β} {a : α} {m m' : Model}

theorem binary_eq (k : Key) (m : Model) : binary k m = .ok (m.binary k).2 (m.binary k).1 := rfl

/-! ## Steps that overflow at worst -/

/-- From the model `m` the session comes to the model and the result that are given; if none are
given, it overflows. -/
inductive Yields (x : Session Model α) (m : Model) : Option (Model × α) → Prop where
  | ok {m' : Model} {a : α} : x m = .ok a m' → Yields x m (some (m', a))
  | overflow {m' : Model} : x m = .error .overflow m' → Yields x m none

theorem yields_return (a : α) (m : Model) : Yields (return a) m (some (m, a)) := .ok rfl

theorem yields_computed (o : Option α) (m : Model) : (computed o).Yields m (o.map (m, ·)) := by
  cases o with
  | none => exact .overflow rfl
  | some x => exact .ok rfl

theorem yields_part {xs : List α} {i : Nat} (h : xs[i]? = some a) (m : Model) :
    (part xs i).Yields m (some (m, a)) := by
  rw [part, h]
  exact yields_return a m

theorem Yields.bind_none (h : x.Yields m none) : (x >>= f).Yields m none := by
  cases h with
  | overflow h => exact .overflow (bind_of_error h)

theorem Yields.bind_some {r : Option (Model × β)} (h : x.Yields m (some (m', a)))
    (hf : (f a).Yields m' r) : (x >>= f).Yields m r := by
  cases h with
  | ok h =>
    cases hf with
    | ok hf => exact .ok ((bind_of_ok h).trans hf)
    | overflow hf => exact .overflow ((bind_of_ok h).trans hf)

theorem Yields.bind {r : Option (Model × α)} {g : Model → α → Option (Model × β)}
    (h : x.Yields m r) (hf : ∀ m' a, (f a).Yields m' (g m' a)) :
    (x >>= f).Yields m (r.bind fun p => g p.1 p.2) := by
  cases h with
  | ok hx => exact (Yields.ok hx).bind_some (hf _ _)
  | overflow hx => exact (Yields.overflow hx).bind_none

theorem yields_computed_bind (o : Option α) {g : α → Option (Model × β)}
    (hf : ∀ a, (f a).Yields m (g a)) : (computed o >>= f).Yields m (o.bind g) := by
  cases o with
  | none => exact (yields_computed none m).bind_none
  | some a => exact (yields_computed (some a) m).bind_some (hf a)

theorem indicate_yields (k : Key) (rows : Var → Option (List Constraint)) (m : Model) :
    (indicate k rows).Yields m ((m.indicate k rows).map Encoded.parts) := by
  have hrows := yields_computed_bind (rows (m.binary k).2)
    fun cs => yields_return ((m.binary k).2, cs) (m.binary k).1
  refine Yields.bind_some (.ok (binary_eq k m)) ?_
  rw [Model.indicate]
  cases h : rows (m.binary k).2 with
  | none => rwa [h] at hrows
  | some cs => rwa [h] at hrows

/-! ## Comparisons -/

theorem leq_yields (a b : Expr) (bigM : Int) (m : Model) :
    (leq a b bigM).Yields m ((m.leq a b bigM).map Encoded.parts) := by
  rw [leq, Model.leq]
  cases b.addConst 1 with
  | none => exact (yields_computed none m).bind_none
  | some b' => exact (yields_computed (some b') m).bind_some (indicate_yields _ _ m)

theorem geq_yields (a b : Expr) (bigM : Int) (m : Model) :
    (geq a b bigM).Yields m ((m.geq a b bigM).map Encoded.parts) := by
  rw [geq, Model.geq]
  cases a.addConst 1 with
  | none => exact (yields_computed none m).bind_none
  | some a' => exact (yields_computed (some a') m).bind_some (indicate_yields _ _ m)

theorem joined_yields {first second : Session Model (Var × List Constraint)}
    {join : Var → Var → Session Model (Var × List Constraint)}
    {first' second' : Model → Option Encoded} {join' : Model → Var → Var → Option Encoded}
    (hfirst : ∀ m, first.Yields m ((first' m).map Encoded.parts))
    (hsecond : ∀ m, second.Yields m ((second' m).map Encoded.parts))
    (hjoin : ∀ u v m, (join u v).Yields m ((join' m u v).map Encoded.parts)) (m : Model) :
    (joined first second join).Yields m
      ((Model.joined first' second' join' m).map Encoded.parts) := by
  rw [joined, Model.joined]
  have h₁ := hfirst m
  generalize first' m = p at h₁ ⊢
  cases p with
  | none => exact h₁.bind_none
  | some p =>
    refine h₁.bind_some ?_
    have h₂ := hsecond p.model
    dsimp only
    generalize second' p.model = q at h₂ ⊢
    cases q with
    | none => exact h₂.bind_none
    | some q =>
      refine h₂.bind_some ?_
      have h₃ := hjoin p.indicator q.indicator q.model
      dsimp only
      generalize join' q.model p.indicator q.indicator = r at h₃ ⊢
      cases r with
      | none => exact h₃.bind_none
      | some r => exact h₃.bind_some (yields_return _ _)

theorem compare_yields (op : Comparison) (a b : Expr) (bigM : Int) (m : Model) :
    (compare op a b bigM).Yields m ((m.compare op a b bigM).map Encoded.parts) := by
  cases op with
  | less => exact indicate_yields _ _ m
  | leq => exact leq_yields a b bigM m
  | greater => exact indicate_yields _ _ m
  | geq => exact geq_yields a b bigM m
  | eq =>
    exact joined_yields (leq_yields a b bigM) (geq_yields a b bigM)
      (fun u v => indicate_yields (.and [u, v]) (and2Rows u v)) m
  | neq =>
    exact joined_yields (indicate_yields (.less a b) (lessRows a b bigM))
      (indicate_yields (.less b a) (lessRows b a bigM))
      (fun u v => indicate_yields (.or [u, v]) (or2Rows u v)) m

/-! ## Chains -/

theorem branches_yields {bodies : List (List Constraint)} (conds : List Var) (bigM : Int)
    (reach : Expr) (i : Nat) {rest : List Var} (hlen : (bodies.drop i).length = rest.length)
    (m : Model) :
    (branches conds bodies bigM reach i rest).Yields m
      ((chainRows bigM reach i (rest.zip ((m.selectors conds i rest).2.zip (bodies.drop i)))).map
        fun rows => ((m.selectors conds i rest).1, rows, (m.selectors conds i rest).2)) := by
  induction rest generalizing m reach i with
  | nil => exact yields_return _ m
  | cons cond rest ih =>
    obtain ⟨body, hbody, hdrop⟩ : ∃ body, bodies[i]? = some body ∧
        bodies.drop i = body :: bodies.drop (i + 1) := by
      have hi : i < bodies.length := by
        rw [List.length_drop, List.length_cons] at hlen
        omega
      exact ⟨bodies[i], List.getElem?_eq_getElem hi, List.drop_eq_getElem_cons hi⟩
    have hlen' : (bodies.drop (i + 1)).length = rest.length := by
      rw [hdrop] at hlen
      exact Nat.succ.inj hlen
    rw [Model.selectors_cons, hdrop, branches]
    refine Yields.bind_some (.ok (binary_eq _ m)) ((yields_part hbody _).bind_some ?_)
    have hstep := yields_computed_bind
      (branchRows reach i cond (m.binary (.selector conds i)).2 body bigM) fun rows =>
        yields_computed_bind (reach.add (.complement cond)) fun reach' =>
          (ih reach' (i + 1) hlen' (m.binary (.selector conds i)).1).bind fun m' later =>
            yields_return (rows ++ later.1, (m.binary (.selector conds i)).2 :: later.2) m'
    simpa [chainRows, Option.map_bind, Option.bind_map, Function.comp_def] using hstep

/-! ## Statements -/

/-- From the model `m` the session comes to the model and the rows that are given, or to the error
that is given. It refuses before it changes anything. -/
inductive Tracks (x : Session Model (Option Var × List Constraint)) (m : Model) :
    Except EncodeError (Model × List Constraint) → Prop where
  | ok {m' : Model} {i : Option Var} {rows : List Constraint} :
      x m = .ok (i, rows) m' → Tracks x m (.ok (m', rows))
  | overflow {m' : Model} : x m = .error .overflow m' → Tracks x m (.error .overflow)
  | refused {e : EncodeError} : e ≠ .overflow → x m = .error (.refused e) m → Tracks x m (.error e)

theorem indicated_tracks {x : Session Model (Var × List Constraint)} {e : Option Encoded}
    (h : x.Yields m (e.map Encoded.parts)) : (indicated x).Tracks m (Statement.indicated e) := by
  cases e with
  | none =>
    cases h with
    | overflow h => exact .overflow (bind_of_error h)
  | some e =>
    cases h with
    | ok h => exact .ok (bind_of_ok h)

theorem silent_tracks {x : Session Model (List Constraint)} {o : Option (Model × List Constraint)}
    (h : x.Yields m o) : (silent x).Tracks m (orOverflow o) := by
  cases h with
  | ok h => exact .ok (bind_of_ok h)
  | overflow h => exact .overflow (bind_of_error h)

theorem silent_answered_tracks (r : Except EncodeError (List Constraint)) (m : Model) :
    (silent (answered r)).Tracks m (Statement.leavesModel m r) := by
  cases r with
  | ok rows => exact .ok (bind_of_ok rfl)
  | error e =>
    cases e with
    | overflow => exact .overflow (bind_of_error rfl)
    | arityMismatch c b => exact .refused nofun (bind_of_error rfl)
    | widthMismatch o w n => exact .refused nofun (bind_of_error rfl)
    | unsupportedArity n k => exact .refused nofun (bind_of_error rfl)

theorem selection_yields {conds : List Var} {bodies : List (List Constraint)}
    (hlen : conds.length = bodies.length) (otherwise : List Constraint) (bigM : Int) (m : Model) :
    Yields (do
      let all ← branches conds bodies bigM .zero 0 conds
      let total ← computed (Expr.sum all.2)
      let slack ← computed (total.scale bigM)
      let last ← computed (relax otherwise slack)
      return all.1 ++ last) m
      ((selectorRows conds (m.selectors conds 0 conds).2 bodies otherwise bigM).map
        ((m.selectors conds 0 conds).1, ·)) := by
  have hdrop : (bodies.drop 0).length = conds.length := hlen.symm
  have hall := branches_yields conds bigM .zero 0 hdrop m
  rw [List.drop_zero] at hall
  have hrest := hall.bind fun m' all => yields_computed_bind (Expr.sum all.2) fun total =>
    yields_computed_bind (total.scale bigM) fun slack =>
      yields_computed_bind (relax otherwise slack) fun last => yields_return (all.1 ++ last) m'
  simpa [selectorRows, Option.map_bind, Option.bind_map, Function.comp_def] using hrest

theorem chain_tracks (conds : List Var) (bodies : List (List Constraint))
    (otherwise : List Constraint) (bigM : Int) (m : Model) :
    (silent (chain conds bodies otherwise bigM)).Tracks m
      (m.chain conds bodies otherwise bigM) := by
  by_cases hlen : conds.length = bodies.length
  · simp only [chain, Model.chain, hlen, ne_eq, not_true_eq_false, if_false]
    rw [← hlen]
    cases conds with
    | nil => exact .ok (bind_of_ok rfl)
    | cons cond rest =>
      cases rest with
      | nil =>
        obtain ⟨body, rfl⟩ := List.length_eq_one_iff.1 hlen.symm
        refine silent_tracks (Yields.bind_some (.ok rfl) (Yields.bind_some (.ok rfl) ?_))
        exact yields_computed _ m
      | cons cond' rest =>
        have hrows := silent_tracks (selection_yields hlen otherwise bigM m)
        simp only [selectorRows, Option.bind_eq_bind, Option.map_bind, Option.pure_def,
          Function.comp_def, Option.map_some] at hrows
        exact hrows
  · simp only [chain, Model.chain, ne_eq, hlen, not_false_eq_true, if_true]
    exact .refused (by simp) (bind_of_error rfl)

/-! ## Slices -/

theorem take_min_length (n : Nat) (xs : List α) : xs.take (min n xs.length) = xs.take n := by
  rw [List.take_eq_take_iff, Nat.min_assoc, Nat.min_self]

theorem drop_min_length (n : Nat) (xs : List α) : xs.drop (min n xs.length) = xs.drop n := by
  rcases Nat.le_total n xs.length with hn | hn
  · rw [Nat.min_eq_left hn]
  · rw [Nat.min_eq_right hn, List.drop_length, List.drop_eq_nil_of_le hn]

theorem slice_eq {xs : List α} {i j : Nat} (hi : i ≤ j) (hj : j ≤ xs.length) (m : Model) :
    slice xs i j m = .ok ((xs.take j).drop i) m := by
  rw [slice, if_pos ⟨hi, hj⟩]
  rfl

/-- The ranges of positions that a cut into three asks for are there, however short the list. -/
theorem split3_eq (width : Nat) (xs : List α) (m : Model) :
    split3 width xs m = .ok (Statement.split3 width xs) m := by
  have hfirst : slice xs 0 (min width xs.length) m = .ok (xs.take width) m := by
    rw [slice_eq (by omega) (by omega), List.drop_zero, take_min_length]
  have hsecond : slice xs (min width xs.length) (min (2 * width) xs.length) m =
      .ok ((xs.drop width).take width) m := by
    rw [slice_eq (by omega) (by omega), take_min_length, List.drop_take, drop_min_length]
    rcases Nat.le_total width xs.length with hw | hw
    · rw [Nat.min_eq_left hw, show 2 * width - width = width by omega]
    · rw [List.drop_eq_nil_of_le hw, List.take_nil, List.take_nil]
  have hthird : slice xs (min (2 * width) xs.length) xs.length m =
      .ok (xs.drop (2 * width)) m := by
    rw [slice_eq (by omega) (by omega), List.take_length, drop_min_length]
  rw [split3]
  exact (bind_of_ok hfirst).trans ((bind_of_ok hsecond).trans (bind_of_ok hthird))

/-! ## Statements in place -/

theorem Tracks.congr {x y : Session Model (Option Var × List Constraint)}
    {r : Except EncodeError (Model × List Constraint)} (h : x.Tracks m r) (hxy : y m = x m) :
    y.Tracks m r := by
  cases h with
  | ok h => exact .ok (hxy.trans h)
  | overflow h => exact .overflow (hxy.trans h)
  | refused he h => exact .refused he (hxy.trans h)

theorem silent_congr {x y : Session Model (List Constraint)} (h : x m = y m) :
    silent x m = silent y m := by
  simp only [silent, bind, EStateM.bind, h]

theorem exclusiveOr_tracks (inputs : List Var) (output : Var) (m : Model) :
    (silent (exclusiveOr inputs output)).Tracks m
      (Statement.leavesModel m (Statement.exclusiveOrRows inputs output)) := by
  rw [exclusiveOr]
  split
  · rename_i hlen
    obtain ⟨a, b, rfl⟩ := List.length_eq_two.1 hlen
    rw [Statement.exclusiveOrRows]
    have hrows : silent (do
        let a ← part [a, b] 0
        let b ← part [a, b] 1
        computed (xorRows a b output)) m =
        silent (answered (orOverflow (xorRows a b output))) m := by
      refine silent_congr ((bind_of_ok rfl).trans ((bind_of_ok rfl).trans ?_))
      cases xorRows a b output <;> rfl
    exact (silent_answered_tracks _ m).congr hrows
  · rename_i hlen
    have hrows : Statement.exclusiveOrRows inputs output = parityRows inputs output := by
      rw [Statement.exclusiveOrRows]
      rintro a b rfl
      exact hlen rfl
    rw [hrows]
    exact silent_answered_tracks _ m

theorem encode_tracks (defaultBigM : Int) (s : Statement) (m : Model) :
    (encode defaultBigM s).Tracks m (s.encode m defaultBigM) := by
  cases s with
  | compare op a b bigM => exact indicated_tracks (compare_yields op a b _ m)
  | conjunction vs => exact indicated_tracks (indicate_yields _ _ m)
  | disjunction vs => exact indicated_tracks (indicate_yields _ _ m)
  | xor inputs output => exact exclusiveOr_tracks inputs output m
  | truncatedXor vs =>
    exact (silent_answered_tracks _ m).congr (silent_congr (bind_of_ok (split3_eq bitWidth vs m)))
  | truncatedWordXor vs =>
    exact (silent_answered_tracks _ m).congr (silent_congr (bind_of_ok (split3_eq wordWidth vs m)))
  | linear row => exact .ok (bind_of_ok rfl)
  | ifThen cond body bigM => exact silent_tracks (yields_computed _ m)
  | ifThenElse cond body otherwise bigM => exact silent_tracks (yields_computed _ m)
  | chain conds bodies otherwise bigM => exact chain_tracks conds bodies otherwise _ m

theorem apply_of_ok {defaultBigM : Int} {s : Statement} {i : Option Var} {rows : List Constraint}
    (h : encode defaultBigM s m = .ok (i, rows) m') :
    apply defaultBigM s m = .ok i (m'.addRows rows) := bind_of_ok h

theorem apply_of_error {defaultBigM : Int} {s : Statement} {e : Fault}
    (h : encode defaultBigM s m = .error e m') : apply defaultBigM s m = .error e m' :=
  bind_of_error h

/-- The model that a session leads to, or the error that it reports. -/
def outcome (x : Session Model α) (m : Model) : Except EncodeError Model :=
  match x m with
  | .ok _ m' => .ok m'
  | .error (.refused e) _ => .error e
  | .error _ _ => .error .overflow

end Session

/-! ## Refusals -/

/-- The first of three operands of `width` variables that `n` variables in a row do not fill as they
should. -/
def widthRefusal? (width n : Nat) : Option EncodeError :=
  if n < width then some (.widthMismatch .firstInput width n)
  else if n < 2 * width then some (.widthMismatch .secondInput width (n - width))
  else if n = 3 * width then none
  else some (.widthMismatch .output width (n - 2 * width))

/-- Why a statement is not encoded, whatever the model. -/
def Statement.refusal? : Statement → Option EncodeError
  | .xor inputs _ =>
    if 20 < inputs.length then some (.unsupportedArity inputs.length 20) else none
  | .truncatedXor vs => widthRefusal? 2 vs.length
  | .truncatedWordXor vs => widthRefusal? 10 vs.length
  | .chain conds bodies _ _ =>
    if conds.length = bodies.length then none
    else some (.arityMismatch conds.length bodies.length)
  | _ => none

/-- The encoding fails for the reason that is given; if none is given, it can only overflow. -/
def FailsBy {α : Type} (r : Except EncodeError α) : Option EncodeError → Prop
  | some e => r = .error e
  | none => ∀ e, r = .error e → e = .overflow

variable {α : Type} {m : Model}

theorem failsBy_orOverflow (o : Option α) : FailsBy (orOverflow o) none :=
  fun _ h => orOverflow_eq_error h

theorem FailsBy.leavesModel {r : Except EncodeError (List Constraint)} {o : Option EncodeError}
    (h : FailsBy r o) : FailsBy (Statement.leavesModel m r) o := by
  cases o with
  | some e =>
    cases h
    rfl
  | none =>
    cases r with
    | ok rows => nofun
    | error e => exact fun e' he => h e' (congrArg _ (Except.error.inj he))

theorem relationRows_failsBy (width : Nat) (cover : List Pattern) (vs : List Var) :
    FailsBy (relationRows width cover (vs.take width) ((vs.drop width).take width)
      (vs.drop (2 * width))) (widthRefusal? width vs.length) := by
  have hfirst : (vs.take width).length = min width vs.length := List.length_take
  have hsecond : ((vs.drop width).take width).length = min width (vs.length - width) := by
    rw [List.length_take, List.length_drop]
  have hthird : (vs.drop (2 * width)).length = vs.length - 2 * width := List.length_drop
  rw [widthRefusal?]
  split
  · rename_i hlt
    rw [Nat.min_eq_right (by omega)] at hfirst
    simp only [relationRows, checkWidth, hfirst, if_neg (Nat.ne_of_lt hlt)]
    rfl
  · rw [Nat.min_eq_left (by omega)] at hfirst
    split
    · rename_i hlt
      rw [Nat.min_eq_right (by omega)] at hsecond
      simp only [relationRows, checkWidth, hfirst, hsecond, if_true,
        if_neg (show vs.length - width ≠ width by omega)]
      rfl
    · rw [Nat.min_eq_left (by omega)] at hsecond
      split
      · simp only [relationRows, checkWidth, hfirst, hsecond, hthird, if_true,
          if_pos (show vs.length - 2 * width = width by omega)]
        exact failsBy_orOverflow _
      · simp only [relationRows, checkWidth, hfirst, hsecond, hthird, if_true,
          if_neg (show vs.length - 2 * width ≠ width by omega)]
        rfl

namespace Statement

theorem exclusiveOrRows_failsBy (inputs : List Var) (output : Var) :
    FailsBy (exclusiveOrRows inputs output) ((Statement.xor inputs output).refusal?) := by
  rw [refusal?]
  split
  · rename_i hlong
    have hrows : exclusiveOrRows inputs output = parityRows inputs output := by
      rw [exclusiveOrRows]
      rintro a b rfl
      simp at hlong
    rw [hrows, parityRows, maxArity, if_pos hlong]
    rfl
  · rename_i hshort
    unfold exclusiveOrRows
    split
    · exact failsBy_orOverflow _
    · rw [parityRows, maxArity, if_neg hshort]
      exact failsBy_orOverflow _

theorem chain_failsBy (conds : List Var) (bodies : List (List Constraint))
    (otherwise : List Constraint) (bigM : Int) (M : Option Int) :
    FailsBy (m.chain conds bodies otherwise bigM)
      ((Statement.chain conds bodies otherwise M).refusal?) := by
  rw [refusal?]
  split
  · rename_i hlen
    exact fun e he => Model.chain_eq_error he hlen.symm
  · rename_i hlen
    simp only [Model.chain, ne_eq, hlen, not_false_eq_true, if_true]
    rfl

theorem encode_failsBy (s : Statement) (m : Model) (defaultBigM : Int) :
    FailsBy (s.encode m defaultBigM) s.refusal? := by
  cases s with
  | compare op a b bigM => exact failsBy_orOverflow _
  | conjunction vs => exact failsBy_orOverflow _
  | disjunction vs => exact failsBy_orOverflow _
  | xor inputs output => exact (exclusiveOrRows_failsBy inputs output).leavesModel
  | truncatedXor vs => exact (relationRows_failsBy bitWidth bitCover vs).leavesModel
  | truncatedWordXor vs => exact (relationRows_failsBy wordWidth wordCover vs).leavesModel
  | linear row => nofun
  | ifThen cond body bigM => exact failsBy_orOverflow _
  | ifThenElse cond body otherwise bigM => exact failsBy_orOverflow _
  | chain conds bodies otherwise bigM => exact chain_failsBy conds bodies otherwise _ bigM

theorem refusal?_ne_overflow (s : Statement) : s.refusal? ≠ some .overflow := by
  cases s with
  | xor inputs output =>
    rw [refusal?]
    split <;> simp
  | truncatedXor vs =>
    simp only [refusal?, widthRefusal?]
    grind
  | truncatedWordXor vs =>
    simp only [refusal?, widthRefusal?]
    grind
  | chain conds bodies otherwise bigM =>
    rw [refusal?]
    split <;> simp
  | _ => nofun

/-- What a statement is refused for is an error of its encoding, and no other error than an overflow
is left. -/
theorem refusal?_eq_some_iff (s : Statement) (m : Model) (defaultBigM : Int) {e : EncodeError} :
    s.refusal? = some e ↔ e ≠ .overflow ∧ s.encode m defaultBigM = .error e := by
  have h := encode_failsBy s m defaultBigM
  cases ho : s.refusal? with
  | none =>
    rw [ho] at h
    refine ⟨nofun, ?_⟩
    rintro ⟨hne, he⟩
    exact absurd (h e he) hne
  | some e' =>
    rw [ho] at h
    constructor
    · intro he
      cases he
      exact ⟨fun hover => refusal?_ne_overflow s (hover ▸ ho), h⟩
    · rintro ⟨-, he⟩
      rw [h] at he
      cases he
      rfl

/-- A statement is refused exactly for the reasons of its form, and then the model is as it was
before, with no column created and no row added. No position and no range of positions that its
encoding looks up is missing, whatever the length of a list. What is done in place is what the
statement does to a model. -/
theorem apply_exact (s : Statement) (m : Model) (defaultBigM : Int) :
    (∀ e m', Session.apply defaultBigM s m = .error (.refused e) m' ↔
      s.refusal? = some e ∧ m' = m) ∧
    (∀ m', Session.apply defaultBigM s m ≠ .error .outOfRange m') ∧
    (Session.apply defaultBigM s).outcome m = s.assert m defaultBigM ∧
    ∀ (width : Nat) (vs : List Var), Session.split3 width vs m = .ok (split3 width vs) m := by
  have htracks := Session.encode_tracks defaultBigM s m
  have hrefusal : ∀ e, s.refusal? = some e ↔
      e ≠ .overflow ∧ s.encode m defaultBigM = .error e :=
    fun e => refusal?_eq_some_iff s m defaultBigM
  rw [assert]
  generalize s.encode m defaultBigM = r at htracks hrefusal ⊢
  cases htracks with
  | ok h =>
    rw [Session.outcome, Session.apply_of_ok h]
    refine ⟨?_, nofun, rfl, fun width vs => Session.split3_eq width vs m⟩
    intro e m'
    simp [hrefusal]
  | overflow h =>
    rw [Session.outcome, Session.apply_of_error h]
    refine ⟨?_, nofun, rfl, fun width vs => Session.split3_eq width vs m⟩
    intro e m'
    simp only [hrefusal]
    grind
  | refused he h =>
    rw [Session.outcome, Session.apply_of_error h]
    refine ⟨?_, nofun, rfl, fun width vs => Session.split3_eq width vs m⟩
    intro e m'
    simp only [hrefusal]
    grind

example : (truncatedWordXor (List.range 25)).refusal? = some (.widthMismatch .output 10 5) := by
  decide

end Statement
end Linearize
