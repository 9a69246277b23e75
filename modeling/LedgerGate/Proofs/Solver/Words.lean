import LedgerGate.Proofs.Fraction.Words
import LedgerGate.Proofs.Solver.Rounds
import LedgerGate.Proofs.Solver.Translation

/-!
# Linear forms of machine words

The operations on linear forms, as a machine does them on forms whose numbers need not be in lowest
terms and may be zero (`Word.Form`). From canonical forms the machine never stops, and what it finds
is canonical again and the form of the function that the operation stands for
(`Word.results_canonical`). So two forms are the same when they are the same function, and a form
without variables is a constant function.
-/

namespace LedgerGate.Word

open Result (done refused trapped ofOption)

/-- A sum of variables with coefficients, and a constant. -/
structure Form where
  coeffs : Table Parts
  constant : Parts

/-- Whether all numbers are in lowest terms, and no coefficient is zero. -/
structure Form.IsCanonical (f : Form) : Prop where
  coeffs : ∀ p ∈ f.coeffs.entries, p.2.IsCanonical ∧ p.2.num ≠ 0
  constant : f.constant.IsCanonical

namespace Form

@[ext]
theorem ext {f g : Form} (h : f.coeffs = g.coeffs) (h' : f.constant = g.constant) : f = g := by
  cases f; cases g; cases h; cases h'; rfl

/-- The words of a linear form. -/
def of (l : Linear) : Form := ⟨l.coeffs.map Parts.of, Parts.of l.constant⟩

theorem isCanonical_of (l : Linear) : (of l).IsCanonical where
  coeffs p hp := by
    obtain ⟨e, he, rfl⟩ := List.mem_map.mp hp
    exact ⟨Parts.isCanonical_iff.mpr ⟨e.2, rfl⟩, l.nonzero e he⟩
  constant := Parts.isCanonical_iff.mpr ⟨_, rfl⟩

/-- The value of a form. -/
def value (ρ : Values) (f : Form) : ℚ :=
  (f.coeffs.entries.map fun p => p.2.value * ρ p.1).sum + f.constant.value

theorem value_of (l : Linear) (ρ : Values) : (of l).value ρ = l.value ρ := by
  rw [value, of, Table.map, List.map_map]
  rfl

/-! ## Operations -/

/-- The form without variables. -/
def ofParts (p : Parts) : Form := ⟨.empty, p⟩

/-- The form of a single variable. -/
def ofVariable (name : String) : Form := ⟨Table.empty.insert name ⟨1, 1⟩, ⟨0, 1⟩⟩

/-- Whether no variable occurs. -/
def isConstant (f : Form) : Bool := f.coeffs.isEmpty

/-- The coefficient of a variable. -/
def coeff (f : Form) (name : String) : Parts := (f.coeffs.get? name).getD ⟨0, 1⟩

/-- The form without a variable. -/
def erase (f : Form) (name : String) : Form := ⟨f.coeffs.erase name, f.constant⟩

/-- Coefficients with others added, in order. A sum that is zero is left out. -/
def addTerms (t : Table Parts) : List (String × Parts) → Result (Table Parts)
  | [] => pure t
  | (name, c) :: rest => do
    let sum ← ((t.get? name).getD ⟨0, 1⟩).add c
    addTerms (if sum.num = 0 then t.erase name else t.insert name sum) rest

/-- The sum of two forms. -/
def add (f g : Form) : Result Form := do
  let coeffs ← addTerms f.coeffs g.coeffs.entries
  let constant ← f.constant.add g.constant
  pure ⟨coeffs, constant⟩

/-- Coefficients with multiples of others put among them, in order. -/
def scaleTerms (k : Parts) (t : Table Parts) : List (String × Parts) → Result (Table Parts)
  | [] => pure t
  | (name, c) :: rest => do
    let product ← c.mul k
    scaleTerms k (t.insert name product) rest

/-- The form multiplied by a factor. -/
def scale (f : Form) (k : Parts) : Result Form :=
  if k.num = 0 then pure (ofParts ⟨0, 1⟩)
  else do
    let coeffs ← scaleTerms k .empty f.coeffs.entries
    let constant ← f.constant.mul k
    pure ⟨coeffs, constant⟩

/-- The difference of two forms. -/
def sub (f g : Form) : Result Form := do
  let negated ← g.scale ⟨-1, 1⟩
  f.add negated

/-- The form with a variable replaced by another form. -/
def substitute (f : Form) (name : String) (replacement : Form) : Result Form :=
  if (f.coeff name).num = 0 then pure f
  else do
    let scaled ← replacement.scale (f.coeff name)
    (f.erase name).add scaled

/-- The form divided by the size of its first coefficient. -/
def normalize (f : Form) : Result Form :=
  match f.coeffs.entries with
  | [] => pure f
  | (_, lead) :: _ => do
    let size ← lead.abs
    let k ← size.recip
    f.scale k

/-- The form that follows from those of an upper and a lower bound of a variable. -/
def combine (name : String) (upper lower : Form) : Result Form := do
  let k ← (lower.coeff name).abs
  let a ← upper.scale k
  let b ← lower.scale (upper.coeff name)
  let sum ← a.add b
  pure (sum.erase name)

/-! ### What the machine finds -/

theorem coeff_of (l : Linear) (name : String) : (of l).coeff name = Parts.of (l.coeff name) := by
  rw [coeff, of, Table.get?_map, Linear.coeff]
  cases l.coeffs.get? name <;> rfl

theorem of_erase (l : Linear) (name : String) : of (l.erase name) = (of l).erase name :=
  ext (Table.map_erase Parts.of l.coeffs name) rfl

theorem addTerms_eq (l : Linear) (ts : List (String × Fraction)) :
    addTerms (l.coeffs.map Parts.of) (ts.map fun p => (p.1, Parts.of p.2)) =
      ofOption ((l.addTerms? ts).map fun l' => l'.coeffs.map Parts.of) := by
  induction ts generalizing l with
  | nil => rfl
  | cons p rest ih =>
    obtain ⟨name, q⟩ := p
    have hcoeff : ((l.coeffs.map Parts.of).get? name).getD ⟨0, 1⟩ = Parts.of (l.coeff name) :=
      coeff_of l name
    rw [List.map_cons, addTerms, hcoeff, Parts.add_eq, Linear.addTerms?, Linear.addTerm?]
    cases (l.coeff name).add? q with
    | none => rfl
    | some s =>
      rw [Option.map_some, Result.ofOption_some, Result.done_bind]
      dsimp only
      by_cases hs : s.num = 0
      · rw [dif_pos hs, if_pos (show (Parts.of s).num = 0 from hs), ← Table.map_erase]
        exact ih (l.erase name)
      · rw [dif_neg hs, if_neg (show ¬ (Parts.of s).num = 0 from hs), ← Table.map_insert]
        exact ih (l.put name s hs)

theorem add_eq (l m : Linear) : (of l).add (of m) = ofOption ((l.add? m).map of) := by
  have hterms : addTerms (of l).coeffs (of m).coeffs.entries =
      ofOption ((l.addTerms? m.coeffs.entries).map fun l' => l'.coeffs.map Parts.of) :=
    addTerms_eq l m.coeffs.entries
  have hconst : (of l).constant.add (of m).constant =
      ofOption ((l.constant.add? m.constant).map Parts.of) := Parts.add_eq l.constant m.constant
  rw [add, hterms, hconst, Linear.add?]
  cases l.addTerms? m.coeffs.entries with
  | none => rfl
  | some l' =>
    cases l.constant.add? m.constant with
    | none => rfl
    | some c => rfl

theorem scaleTerms_eq (k : Fraction) (t : Table Parts) (ts : List (String × Fraction)) :
    scaleTerms (Parts.of k) t (ts.map fun p => (p.1, Parts.of p.2)) =
      ofOption ((Linear.scaleTerms? k ts).map fun us =>
        (us.map fun p => (p.1, Parts.of p.2)).foldl (fun t p => t.insert p.1 p.2) t) := by
  induction ts generalizing t with
  | nil => rfl
  | cons p rest ih =>
    obtain ⟨name, q⟩ := p
    rw [List.map_cons, scaleTerms, Parts.mul_eq, Linear.scaleTerms?]
    cases q.mul? k with
    | none => rfl
    | some s =>
      rw [Option.map_some, Result.ofOption_some, Result.done_bind, ih]
      cases Linear.scaleTerms? k rest <;> rfl

theorem scale_eq (l : Linear) (k : Fraction) :
    (of l).scale (Parts.of k) = ofOption ((l.scale? k).map of) := by
  have hterms : scaleTerms (Parts.of k) .empty (of l).coeffs.entries =
      ofOption ((Linear.scaleTerms? k l.coeffs.entries).map fun us =>
        Table.ofList (us.map fun p => (p.1, Parts.of p.2))) :=
    scaleTerms_eq k .empty l.coeffs.entries
  have hconst : (of l).constant.mul (Parts.of k) =
      ofOption ((l.constant.mul? k).map Parts.of) := Parts.mul_eq l.constant k
  unfold scale Linear.scale?
  by_cases hk : k.num = 0
  · rw [dif_pos hk, if_pos (show (Parts.of k).num = 0 from hk)]
    rfl
  · rw [dif_neg hk, if_neg (show ¬ (Parts.of k).num = 0 from hk)]
    split
    · next ts c hts hc =>
      rw [hterms, hconst, congrArg (Option.map _) hts, congrArg (Option.map _) hc]
      refine congrArg done (ext ?_ rfl)
      -- The products come in the order of their names, so putting them in one by one keeps it.
      exact Table.ofList_entries (Table.map Parts.of ⟨ts, Linear.sorted_of_names
        (Linear.names_scaleTerms? hts) l.coeffs.sorted⟩)
    · next hnone =>
      rw [hterms, hconst]
      cases hts : Linear.scaleTerms? k l.coeffs.entries with
      | none => rfl
      | some ts =>
        cases hc : l.constant.mul? k with
        | none => rfl
        | some c => exact absurd hc (hnone ts c hts)

theorem sub_eq (l m : Linear) : (of l).sub (of m) = ofOption ((l.sub? m).map of) := by
  have hscale : (of m).scale ⟨-1, 1⟩ = ofOption ((m.scale? Fraction.minusOne).map of) :=
    scale_eq m Fraction.minusOne
  rw [sub, hscale, Linear.sub?]
  cases m.scale? Fraction.minusOne with
  | none => rfl
  | some n => exact add_eq l n

theorem substitute_eq (l : Linear) (name : String) (r : Linear) :
    (of l).substitute name (of r) = ofOption ((l.substitute? name r).map of) := by
  rw [substitute, coeff_of, Linear.substitute?, scale_eq, ← of_erase]
  by_cases hz : (l.coeff name).num = 0
  · rw [if_pos (show (Parts.of (l.coeff name)).num = 0 from hz),
      if_pos (show (l.coeff name).isZero = true from beq_iff_eq.mpr hz)]
    rfl
  · rw [if_neg (show ¬ (Parts.of (l.coeff name)).num = 0 from hz),
      if_neg (show ¬ (l.coeff name).isZero = true from fun h => hz (beq_iff_eq.mp h))]
    cases r.scale? (l.coeff name) with
    | none => rfl
    | some s => exact add_eq (l.erase name) s

theorem normalize_eq (l : Linear) : (of l).normalize = ofOption (l.normalize?.map of) := by
  unfold normalize Linear.normalize?
  cases hentries : l.coeffs.entries with
  | nil =>
    have hnil : (of l).coeffs.entries = [] := congrArg (List.map _) hentries
    rw [hnil]
    rfl
  | cons p rest =>
    have hcons : (of l).coeffs.entries =
        (p.1, Parts.of p.2) :: rest.map fun p => (p.1, Parts.of p.2) :=
      congrArg (List.map _) hentries
    rw [hcons]
    dsimp only
    rw [Parts.abs_eq]
    cases p.2.abs? with
    | none => rfl
    | some size =>
      rw [Option.map_some, Result.ofOption_some, Result.done_bind, Parts.recip_eq]
      dsimp only
      cases size.recip? with
      | none => rfl
      | some k => exact scale_eq l k

theorem combine_eq (name : String) (u l : Constraint) :
    combine name (of u.linear) (of l.linear) =
      ofOption ((Solver.combine? name u l).map fun d => of d.linear) := by
  rw [combine, coeff_of, coeff_of, Parts.abs_eq, Solver.combine?]
  cases (l.linear.coeff name).abs? with
  | none => rfl
  | some k =>
    rw [Option.map_some, Result.ofOption_some, Result.done_bind, scale_eq, scale_eq]
    dsimp only
    cases u.linear.scale? k with
    | none => rfl
    | some a =>
      cases l.linear.scale? (u.linear.coeff name) with
      | none => rfl
      | some b =>
        rw [Option.map_some, Option.map_some, Result.ofOption_some, Result.ofOption_some,
          Result.done_bind, Result.done_bind, add_eq]
        dsimp only
        cases a.add? b with
        | none => rfl
        | some s => exact congrArg done (of_erase s name).symm

end Form

/-! ## Translation -/

open Constraint (LinearError ofExpr ofPredicate)

/-- A step of a translation, in which a refusal is an error. -/
def orOverflow {α : Type} (r : Result α) : ExceptT LinearError Result α :=
  ExceptT.mk (match r with
    | done a => done (.ok a)
    | refused => done (.error .overflow)
    | trapped => trapped)

/-- The form of a term. -/
def translate (precision : Nat) : Expr → ExceptT LinearError Result Form
  | .lit text =>
    match Decimal.parse text precision with
    | .error e => throw (.malformed e)
    | .ok d => do
      let q ← orOverflow (Parts.ofDecimal d)
      pure (.ofParts q)
  | .var name => pure (.ofVariable name)
  | .neg a => do
    let f ← translate precision a
    orOverflow (f.scale ⟨-1, 1⟩)
  | .add a b => do
    let f ← translate precision a
    let g ← translate precision b
    orOverflow (f.add g)
  | .sub a b => do
    let f ← translate precision a
    let g ← translate precision b
    orOverflow (f.sub g)
  | .mul a b => do
    let f ← translate precision a
    let g ← translate precision b
    if f.isConstant then orOverflow (g.scale f.constant)
    else if g.isConstant then orOverflow (f.scale g.constant)
    else throw .nonlinear

/-- The form of a predicate, and how it is related to zero. -/
def translatePredicate (precision : Nat) (p : Predicate) :
    ExceptT LinearError Result (Form × Relation) := do
  let lhs ← translate precision p.lhs
  let rhs ← translate precision p.rhs
  let difference ← orOverflow (lhs.sub rhs)
  match p.op with
  | .eq => pure (difference, .eq)
  | .ne => pure (difference, .ne)
  | .lt => pure (difference, .lt)
  | .le => pure (difference, .le)
  | .gt => do
    let flipped ← orOverflow (rhs.sub lhs)
    pure (flipped, .lt)
  | .ge => do
    let flipped ← orOverflow (rhs.sub lhs)
    pure (flipped, .le)

/-- A translation that was done, in the words of the machine. -/
def translated {α β : Type} (f : α → β) (x : Except LinearError α) : ExceptT LinearError Result β :=
  ExceptT.mk (done (x.map f))

theorem orOverflow_eq (o : Option Linear) :
    orOverflow (ofOption (o.map Form.of)) = translated Form.of (Constraint.orOverflow o) := by
  cases o <;> rfl

theorem orOverflow_scale (l : Linear) (k : Fraction) :
    orOverflow ((Form.of l).scale (Parts.of k)) =
      translated Form.of (Constraint.orOverflow (l.scale? k)) := by
  rw [Form.scale_eq, orOverflow_eq]

/-- Two terms are translated one after the other. -/
theorem translated_both {x y : Except LinearError Linear}
    {F : Form → Form → ExceptT LinearError Result Form}
    {f : Linear → Linear → Except LinearError Linear}
    (h : ∀ l m, F (Form.of l) (Form.of m) = translated Form.of (f l m)) :
    (do
      let a ← translated Form.of x
      let b ← translated Form.of y
      F a b) = translated Form.of (Constraint.both x y f) := by
  cases x with
  | error e => rfl
  | ok l =>
    cases y with
    | error e => rfl
    | ok m => exact h l m

theorem isConstant_of (l : Linear) : (Form.of l).isConstant = l.isConstant := List.isEmpty_map

theorem product_eq (l m : Linear) :
    (if (Form.of l).isConstant then orOverflow ((Form.of m).scale (Form.of l).constant)
      else if (Form.of m).isConstant then orOverflow ((Form.of l).scale (Form.of m).constant)
      else throw .nonlinear) = translated Form.of (Constraint.product l m) := by
  rw [isConstant_of, isConstant_of, Constraint.product]
  split
  · exact orOverflow_scale m l.constant
  · split
    · exact orOverflow_scale l m.constant
    · rfl

theorem translate_eq (precision : Nat) (e : Expr) :
    translate precision e = translated Form.of (ofExpr precision e) := by
  induction e with
  | lit text =>
    rw [translate, ofExpr, Constraint.ofLiteral]
    cases Decimal.parse text precision with
    | error e => rfl
    | ok d =>
      dsimp only
      rw [Parts.ofDecimal_eq]
      cases Fraction.ofDecimal? d <;> rfl
  | var name => rfl
  | neg a ih =>
    rw [translate, ih, ofExpr]
    cases ofExpr precision a with
    | error e => rfl
    | ok l => exact orOverflow_scale l Fraction.minusOne
  | add a b iha ihb =>
    rw [translate, iha, ihb, ofExpr]
    exact translated_both fun l m => by rw [Form.add_eq, orOverflow_eq]
  | sub a b iha ihb =>
    rw [translate, iha, ihb, ofExpr]
    exact translated_both fun l m => by rw [Form.sub_eq, orOverflow_eq]
  | mul a b iha ihb =>
    rw [translate, iha, ihb, ofExpr]
    exact translated_both product_eq

theorem translatePredicate_eq (precision : Nat) (p : Predicate) :
    translatePredicate precision p =
      translated (fun c => (Form.of c.linear, c.relation)) (ofPredicate precision p) := by
  rw [translatePredicate, translate_eq, translate_eq, ofPredicate]
  cases ofExpr precision p.lhs with
  | error e => rfl
  | ok l =>
    cases ofExpr precision p.rhs with
    | error e => rfl
    | ok m =>
      -- Only a comparison that points backwards takes the difference the other way too.
      have hforward := Form.sub_eq l m
      have hback := Form.sub_eq m l
      show (orOverflow ((Form.of l).sub (Form.of m)) >>= fun difference => _) = _
      rw [hforward]
      dsimp only [Constraint.ofComparison]
      cases l.sub? m with
      | none => rfl
      | some d =>
        cases p.op with
        | eq | ne | lt | le => rfl
        | gt | ge =>
          show (orOverflow ((Form.of m).sub (Form.of l)) >>= fun flipped => _) = _
          rw [hback]
          cases m.sub? l <;> rfl

/-! ## Canonical results -/

/-- A form is canonical exactly if it is made of the words of a linear form. -/
theorem Form.isCanonical_iff {f : Form} : f.IsCanonical ↔ ∃ l, Form.of l = f := by
  refine ⟨fun h => ?_, fun ⟨l, hl⟩ => hl ▸ isCanonical_of l⟩
  obtain ⟨c, hc⟩ := Parts.isCanonical_iff.mp h.constant
  -- Each of the coefficients is read as the fraction of which it is the words.
  have hread : ∀ p ∈ f.coeffs.entries, Parts.of (Function.invFun Parts.of p.2) = p.2 :=
    fun p hp => Function.invFun_eq (Parts.isCanonical_iff.mp (h.coeffs p hp).1)
  have hentries : (f.coeffs.map (Function.invFun Parts.of)).map Parts.of = f.coeffs := by
    apply Table.ext
    show List.map _ (List.map _ f.coeffs.entries) = f.coeffs.entries
    rw [List.map_map]
    refine Eq.trans (List.map_congr_left ?_) (List.map_id f.coeffs.entries)
    exact fun p hp => Prod.ext rfl (hread p hp)
  refine ⟨⟨f.coeffs.map (Function.invFun Parts.of), c, ?_⟩, Form.ext hentries hc⟩
  rintro _ hmem
  obtain ⟨p, hp, rfl⟩ := List.mem_map.mp hmem
  have hnum := (h.coeffs p hp).2
  rwa [← hread p hp] at hnum

/-- Whether the machine finds what an operation on forms gives, which is canonical and has the
values of the given function, and refuses where the operation gives nothing. -/
structure Form.Gives (r : Result Form) (o : Option Linear) (f : Values → ℚ) : Prop where
  same : r = ofOption (o.map Form.of)
  exact : ∀ g, r = done g → g.IsCanonical ∧ ∀ ρ, g.value ρ = f ρ

theorem Form.gives_of_eq {r : Result Form} {o : Option Linear} {f : Values → ℚ}
    (h : r = ofOption (o.map Form.of)) (hf : ∀ l, o = some l → ∀ ρ, l.value ρ = f ρ) :
    Form.Gives r o f where
  same := h
  exact g hg := by
    rw [h, Result.ofOption_eq_done_iff, Option.map_eq_some_iff] at hg
    obtain ⟨l, hl, rfl⟩ := hg
    exact ⟨isCanonical_of l, fun ρ => (value_of l ρ).trans (hf l hl ρ)⟩

/-- Canonical forms with the same values are the same. -/
theorem Form.eq_iff_value_eq {f g : Form} (hf : f.IsCanonical) (hg : g.IsCanonical) :
    f = g ↔ ∀ ρ, f.value ρ = g.value ρ := by
  obtain ⟨l, rfl⟩ := isCanonical_iff.mp hf
  obtain ⟨m, rfl⟩ := isCanonical_iff.mp hg
  refine ⟨fun h ρ => congrArg (value ρ) h, fun h => congrArg of (Linear.eq_of_value_eq fun ρ => ?_)⟩
  rw [← value_of, ← value_of, h]

theorem Form.isConstant_iff_value {f : Form} (hf : f.IsCanonical) :
    f.isConstant = true ↔ ∀ ρ σ, f.value ρ = f.value σ := by
  obtain ⟨l, rfl⟩ := isCanonical_iff.mp hf
  rw [isConstant_of, Linear.isConstant_iff_value]
  simp only [value_of]

theorem Form.gives_combine {name : String} (u : Constraint) {l : Constraint}
    (hneg : (l.linear.coeff name).value < 0) :
    Form.Gives (combine name (of u.linear) (of l.linear))
      ((Solver.combine? name u l).map Constraint.linear) fun ρ =>
        u.linear.value ρ * |(l.linear.coeff name).value| +
          l.linear.value ρ * (u.linear.coeff name).value := by
  refine gives_of_eq ?_ fun s hs ρ => ?_
  · rw [combine_eq, Option.map_map]
    rfl
  · obtain ⟨d, hd, rfl⟩ := Option.map_eq_some_iff.mp hs
    exact Solver.value_combine? hd hneg

variable {precision : Nat} {f : Form}

theorem translated_eq_pure {α β : Type} {g : α → β} {x : Except LinearError α} {b : β}
    (h : translated g x = pure b) : ∃ a, x = .ok a ∧ g a = b := by
  cases x with
  | error e => cases Result.done.inj h
  | ok a => exact ⟨a, rfl, Except.ok.inj (Result.done.inj h)⟩

/-- A term is translated to a canonical form with its value. -/
theorem isCanonical_of_translate {e : Expr} (h : translate precision e = pure f) :
    f.IsCanonical ∧ ∀ ρ, e.value? precision ρ = some (f.value ρ) := by
  rw [translate_eq] at h
  obtain ⟨l, hl, rfl⟩ := translated_eq_pure h
  refine ⟨Form.isCanonical_of l, fun ρ => ?_⟩
  rw [Form.value_of, Constraint.value?_of_ofExpr hl]

/-- A predicate is translated to a canonical form that is related to zero where it is true. -/
theorem isCanonical_of_translatePredicate {p : Predicate} {r : Relation}
    (h : translatePredicate precision p = pure (f, r)) :
    f.IsCanonical ∧ ∀ ρ, p.Holds precision ρ ↔ r.Holds (f.value ρ) := by
  rw [translatePredicate_eq] at h
  obtain ⟨c, hc, hwords⟩ := translated_eq_pure h
  obtain ⟨rfl, rfl⟩ := Prod.mk.inj hwords
  refine ⟨Form.isCanonical_of c.linear, fun ρ => ?_⟩
  rw [Form.value_of, ← Constraint.holds_ofPredicate_iff hc]
  rfl

open Int128 (Fits)

/-- Fractions and linear forms are canonical. From any two words, and from any decimal, the machine
makes a fraction in lowest terms with the value of their quotient, or refuses; so it does with each
operation on fractions in lowest terms. In no case is it stopped by a division by zero or by a
number that leaves its range. Translation and the operations of elimination give forms without zero
coefficients, of the functions that they stand for. So forms are the same when they are the same
function, and those without variables are the constant functions. -/
theorem results_canonical :
    (∀ n d, Fits n → Fits d → Gives (Parts.make n d) (Fraction.of? n d) (n / d)) ∧
    (∀ d, Gives (Parts.ofDecimal d) (Fraction.ofDecimal? d) d.value) ∧
    (∀ p : Parts, p.IsCanonical ↔ ∃ q, Parts.of q = p) ∧
    (∀ a b : Fraction,
      Gives ((Parts.of a).add (Parts.of b)) (a.add? b) (a.value + b.value) ∧
      Gives ((Parts.of a).mul (Parts.of b)) (a.mul? b) (a.value * b.value) ∧
      Gives (Parts.of a).neg a.neg? (-a.value) ∧
      Gives (Parts.of a).recip a.recip? a.value⁻¹ ∧
      Gives (Parts.of a).abs a.abs? |a.value|) ∧
    (∀ precision e,
      translate precision e = translated Form.of (ofExpr precision e) ∧
      ∀ f, translate precision e = pure f →
        f.IsCanonical ∧ ∀ ρ, e.value? precision ρ = some (f.value ρ)) ∧
    (∀ precision p,
      translatePredicate precision p =
        translated (fun c => (Form.of c.linear, c.relation)) (ofPredicate precision p) ∧
      ∀ f r, translatePredicate precision p = pure (f, r) →
        f.IsCanonical ∧ ∀ ρ, p.Holds precision ρ ↔ r.Holds (f.value ρ)) ∧
    (∀ f : Form, f.IsCanonical ↔ ∃ l, Form.of l = f) ∧
    (∀ (l m : Linear) (k : Fraction) (name : String),
      Form.Gives ((Form.of l).add (Form.of m)) (l.add? m) (fun ρ => l.value ρ + m.value ρ) ∧
      Form.Gives ((Form.of l).scale (Parts.of k)) (l.scale? k) (fun ρ => l.value ρ * k.value) ∧
      Form.Gives ((Form.of l).sub (Form.of m)) (l.sub? m) (fun ρ => l.value ρ - m.value ρ) ∧
      Form.Gives ((Form.of l).substitute name (Form.of m)) (l.substitute? name m)
        (fun ρ => l.value (Function.update ρ name (m.value ρ))) ∧
      Form.Gives (Form.of l).normalize l.normalize? (fun ρ => l.value ρ / l.leadSize)) ∧
    (∀ name (u l : Constraint), (l.linear.coeff name).value < 0 →
      Form.Gives (Form.combine name (Form.of u.linear) (Form.of l.linear))
        ((Solver.combine? name u l).map Constraint.linear) fun ρ =>
          u.linear.value ρ * |(l.linear.coeff name).value| +
            l.linear.value ρ * (u.linear.coeff name).value) ∧
    (∀ f g : Form, f.IsCanonical → g.IsCanonical → (f = g ↔ ∀ ρ, f.value ρ = g.value ρ)) ∧
    ∀ f : Form, f.IsCanonical → (f.isConstant = true ↔ ∀ ρ σ, f.value ρ = f.value σ) := by
  refine ⟨fun n d hn hd => gives_of_eq (Parts.make_eq hn hd) fun _ => Fraction.value_of?,
    fun d => gives_of_eq (Parts.ofDecimal_eq d) fun _ => Fraction.value_ofDecimal?,
    fun p => Parts.isCanonical_iff, fun a b => ⟨?_, ?_, ?_, ?_, ?_⟩,
    fun precision e => ⟨translate_eq precision e, fun _ => isCanonical_of_translate⟩,
    fun precision p => ⟨translatePredicate_eq precision p,
      fun _ _ => isCanonical_of_translatePredicate⟩,
    fun f => Form.isCanonical_iff, fun l m k name => ⟨?_, ?_, ?_, ?_, ?_⟩,
    fun name u l => Form.gives_combine u, fun f g => Form.eq_iff_value_eq,
    fun f => Form.isConstant_iff_value⟩
  · exact gives_of_eq (Parts.add_eq a b) fun _ => Fraction.value_add?
  · exact gives_of_eq (Parts.mul_eq a b) fun _ => Fraction.value_mul?
  · exact gives_of_eq (Parts.neg_eq a) fun _ => Fraction.value_neg?
  · exact gives_of_eq (Parts.recip_eq a) fun _ => Fraction.value_recip?
  · exact gives_of_eq (Parts.abs_eq a) fun _ => Fraction.value_abs?
  · exact Form.gives_of_eq (Form.add_eq l m) fun _ h _ => Linear.value_add? h
  · exact Form.gives_of_eq (Form.scale_eq l k) fun _ h _ => Linear.value_scale? h
  · exact Form.gives_of_eq (Form.sub_eq l m) fun _ h _ => Linear.value_sub? h
  · exact Form.gives_of_eq (Form.substitute_eq l name m) fun _ h _ => Linear.value_substitute? h
  · exact Form.gives_of_eq (Form.normalize_eq l) fun _ h _ => Linear.value_normalize?_eq_div h

open Solver (rowOf)

/-- The least word over six is in lowest terms after division by two, and over minus one it is
refused. The variable `x` cancels out of `x + y - x`, and of the bounds `x ≤ y` and `1 ≤ x`. What is
left of the first is another function than `x`, and not a constant one. -/
theorem results_canonical_least :
    (Parts.make (-Int128.bound) 6 = done ⟨-85070591730234615865843651857942052864, 3⟩ ∧
      Parts.IsCanonical ⟨-85070591730234615865843651857942052864, 3⟩ ∧
      Parts.make (-Int128.bound) (-1) = refused) ∧
    (translate 28 (.sub (.add (.var "x") (.var "y")) (.var "x")) = pure (Form.ofVariable "y") ∧
      (Form.ofVariable "y").IsCanonical) ∧
    (Form.combine "x" (Form.of (rowOf (.var "x") .le (.var "y")).linear)
        (Form.of (rowOf (.lit "1") .le (.var "x")).linear) =
          done (Form.of (rowOf (.lit "1") .le (.var "y")).linear) ∧
      (Form.of (rowOf (.lit "1") .le (.var "y")).linear).IsCanonical) ∧
    (¬ ∀ ρ, (Form.ofVariable "y").value ρ = (Form.ofVariable "x").value ρ) ∧
    ¬ ∀ ρ σ, (Form.ofVariable "y").value ρ = (Form.ofVariable "y").value σ := by
  obtain ⟨hmake, -, -, -, hterms, -, -, -, hcombine, hequal, hconstant⟩ := results_canonical
  have hleast : Parts.make (-Int128.bound) 6 =
      done ⟨-85070591730234615865843651857942052864, 3⟩ := by decide +kernel
  have hrefused : Parts.make (-Int128.bound) (-1) = refused := by decide +kernel
  have hterm : translate 28 (.sub (.add (.var "x") (.var "y")) (.var "x")) =
      pure (Form.ofVariable "y") := by
    rw [translate_eq, show ofExpr 28 (.sub (.add (.var "x") (.var "y")) (.var "x")) =
      .ok (Linear.ofVariable "y") by decide +kernel]
    rfl
  have hrow : Solver.combine? "x" (rowOf (.var "x") .le (.var "y"))
      (rowOf (.lit "1") .le (.var "x")) = some (rowOf (.lit "1") .le (.var "y")) := by
    decide +kernel
  have hneg : ((rowOf (.lit "1") .le (.var "x")).linear.coeff "x").value < 0 :=
    Fraction.value_neg_iff.mpr (by decide +kernel)
  have hdone := (hcombine "x" (rowOf (.var "x") .le (.var "y")) _ hneg).same
  rw [hrow] at hdone
  have hy := (hterms 28 _).2 _ hterm
  have hx : (Form.ofVariable "x").IsCanonical := Form.isCanonical_of (Linear.ofVariable "x")
  refine ⟨⟨hleast, ((hmake _ 6 (by decide) (by decide)).exact _ hleast).1, hrefused⟩,
    ⟨hterm, hy.1⟩, ⟨hdone, ((hcombine "x" _ _ hneg).exact _ hdone).1⟩, ?_, ?_⟩
  · rw [← hequal _ _ hy.1 hx]
    exact fun h => absurd (congrArg (fun f => f.coeffs.keys) h) (by decide +kernel)
  · rw [← hconstant _ hy.1]
    decide +kernel

end LedgerGate.Word
