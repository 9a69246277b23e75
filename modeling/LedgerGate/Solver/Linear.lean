import LedgerGate.Fraction
import LedgerGate.Table

/-!
# Linear forms

A linear form is a sum of variables with coefficients, and a constant. No coefficient
is zero, so a variable occurs in a form exactly when the form depends on it. An
operation fails when a fraction in it would leave its range.
-/

namespace LedgerGate

/-- A sum of variables with coefficients, and a constant. -/
structure Linear where
  coeffs : Table Fraction
  constant : Fraction
  nonzero : ∀ p ∈ coeffs.entries, p.2.num ≠ 0

namespace Linear

@[ext]
theorem ext {a b : Linear} (h : a.coeffs = b.coeffs) (h' : a.constant = b.constant) : a = b := by
  cases a; cases b; cases h; cases h'; rfl

instance : DecidableEq Linear := fun a b =>
  if h : a.coeffs = b.coeffs ∧ a.constant = b.constant then isTrue (ext h.1 h.2)
  else isFalse (fun e => h (e ▸ ⟨rfl, rfl⟩))

/-- The form without variables. -/
def ofFraction (q : Fraction) : Linear := ⟨Table.empty, q, by simp [Table.empty]⟩

/-- The form of a single variable. -/
def ofVariable (name : String) : Linear :=
  ⟨Table.empty.insert name 1, 0, by
    intro p hp
    rcases Table.mem_insertEntry hp with rfl | hp
    · exact (by decide : (1 : Fraction).num ≠ 0)
    · simp [Table.empty] at hp⟩

instance : Inhabited Linear := ⟨ofFraction 0⟩

/-- Whether no variable occurs. -/
def isConstant (l : Linear) : Bool := l.coeffs.isEmpty

/-- The coefficient of a variable. -/
def coeff (l : Linear) (name : String) : Fraction := (l.coeffs.get? name).getD 0

/-- The variables that occur, in order. -/
def variableNames (l : Linear) : List String := l.coeffs.keys

/-- The form without a variable. -/
def erase (l : Linear) (name : String) : Linear :=
  ⟨l.coeffs.erase name, l.constant, fun p hp => l.nonzero p (List.mem_filter.mp hp).1⟩

/-- The form with a coefficient put in place of the earlier one, for a coefficient that
is not zero. -/
def put (l : Linear) (name : String) (q : Fraction) (h : q.num ≠ 0) : Linear :=
  ⟨l.coeffs.insert name q, l.constant, by
    intro p hp
    rcases Table.mem_insertEntry hp with rfl | hp
    · exact h
    · exact l.nonzero p hp⟩

/-- A form with a multiple of one variable added. -/
def addTerm? (l : Linear) (name : String) (q : Fraction) : Option Linear :=
  match (l.coeff name).add? q with
  | none => none
  | some s => if h : s.num = 0 then some (l.erase name) else some (l.put name s h)

/-- A form with multiples of variables added, in order. -/
def addTerms? (l : Linear) : List (String × Fraction) → Option Linear
  | [] => some l
  | (name, q) :: r =>
    match l.addTerm? name q with
    | some l' => l'.addTerms? r
    | none => none

/-- The sum of two forms. -/
def add? (a b : Linear) : Option Linear :=
  match a.addTerms? b.coeffs.entries, a.constant.add? b.constant with
  | some l, some c => some ⟨l.coeffs, c, l.nonzero⟩
  | _, _ => none

/-- The coefficients multiplied by a factor. -/
def scaleTerms? (k : Fraction) : List (String × Fraction) → Option (List (String × Fraction))
  | [] => some []
  | (name, q) :: r =>
    match q.mul? k, scaleTerms? k r with
    | some s, some t => some ((name, s) :: t)
    | _, _ => none

theorem names_scaleTerms? {k : Fraction} {l t : List (String × Fraction)}
    (h : scaleTerms? k l = some t) : t.map Prod.fst = l.map Prod.fst := by
  induction l generalizing t with
  | nil => simp [scaleTerms?] at h; simp [← h]
  | cons p r ih =>
    obtain ⟨name, q⟩ := p
    simp only [scaleTerms?] at h
    split at h
    · next s t' _ hr =>
      obtain rfl := Option.some.inj h
      simp [ih hr]
    · simp at h

theorem nonzero_scaleTerms? {k : Fraction} (hk : k.num ≠ 0) {l t : List (String × Fraction)}
    (hl : ∀ p ∈ l, p.2.num ≠ 0) (h : scaleTerms? k l = some t) : ∀ p ∈ t, p.2.num ≠ 0 := by
  induction l generalizing t with
  | nil =>
    obtain rfl := Option.some.inj h
    exact fun p hp => by simp at hp
  | cons p r ih =>
    obtain ⟨name, q⟩ := p
    simp only [scaleTerms?] at h
    split at h
    · next s t' hq hr =>
      obtain rfl := Option.some.inj h
      intro p hp
      rcases List.mem_cons.mp hp with rfl | hp
      · have hqn := hl (name, q) (List.mem_cons_self ..)
        intro hs
        rcases (Fraction.mul?_num_eq_zero_iff hq).mp hs with h0 | h0
        · exact hqn h0
        · exact hk h0
      · exact ih (fun p hp => hl p (List.mem_cons_of_mem _ hp)) hr p hp
    · simp at h

theorem sorted_of_names {β γ : Type} {l : List (String × β)} {t : List (String × γ)}
    (h : t.map Prod.fst = l.map Prod.fst) (hl : l.Pairwise (fun p q => p.1 < q.1)) :
    t.Pairwise (fun p q => p.1 < q.1) := by
  have h' : (l.map Prod.fst).Pairwise (· < ·) := List.pairwise_map.mpr hl
  rw [← h] at h'
  exact List.pairwise_map.mp h'

/-- The form multiplied by a factor. -/
def scale? (l : Linear) (k : Fraction) : Option Linear :=
  -- Zero times the terms would leave zero coefficients behind.
  if hk : k.num = 0 then some (ofFraction 0)
  else
    match h : scaleTerms? k l.coeffs.entries, l.constant.mul? k with
    | some t, some c =>
      some ⟨⟨t, sorted_of_names (names_scaleTerms? h) l.coeffs.sorted⟩, c,
        nonzero_scaleTerms? hk l.nonzero h⟩
    | _, _ => none

/-- The difference of two forms. -/
def sub? (a b : Linear) : Option Linear :=
  match b.scale? Fraction.minusOne with
  | some c => a.add? c
  | none => none

/-- The form with a variable replaced by another form. -/
def substitute? (l : Linear) (name : String) (replacement : Linear) : Option Linear :=
  if (l.coeff name).isZero then some l
  else
    match replacement.scale? (l.coeff name) with
    | some r => (l.erase name).add? r
    | none => none

/-- The form divided by the size of its first coefficient. -/
def normalize? (l : Linear) : Option Linear :=
  match l.coeffs.entries with
  | [] => some l
  | (_, lead) :: _ =>
    match lead.abs? with
    | none => none
    | some size =>
      match size.recip? with
      | some k => l.scale? k
      | none => none

/-- The order of two lists of terms: the first difference decides, and a list that
ends first is the lesser. -/
def termsOrder : List (String × Fraction) → List (String × Fraction) → Ordering
  | [], [] => .eq
  | [], _ :: _ => .lt
  | _ :: _, [] => .gt
  | (n, q) :: r, (n', q') :: r' =>
    ((compare n n').then (q.partsOrder q')).then (termsOrder r r')

/-- The order of two forms: by their terms, then by their constants. -/
def order (a b : Linear) : Ordering :=
  (termsOrder a.coeffs.entries b.coeffs.entries).then (a.constant.partsOrder b.constant)

end Linear
end LedgerGate
