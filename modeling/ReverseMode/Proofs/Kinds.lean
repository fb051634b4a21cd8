import ReverseMode.Proofs.Zeros
import ReverseMode.Operator.Gradient

/-!
What equal keys say about operators.

The kind of an operator tells its constructor and its parameters tell the rest, as far as what it
computes depends on it. Parameters that are the same as numbers are the same, apart from the two
zeros.
-/

namespace ReverseMode

variable {α : Type}

/-! ### Parameters -/

namespace Parameter

/-- Two parameters that are the two zeros. -/
def Opposite (p q : Parameter) : Prop :=
  ∃ x y, p = .real x ∧ q = .real y ∧ Zeros.Opposite x y

theorem same_cases {p q : Parameter} (same : p.same q = true) : p = q ∨ Opposite p q := by
  cases p with
  | number m =>
    cases q with
    | number n => exact .inl (congrArg number (of_decide_eq_true same))
    | _ => cases same
  | real x =>
    cases q with
    | real y =>
      rcases Zeros.eq_or_opposite same with rfl | opposite
      · exact .inl rfl
      · exact .inr ⟨x, y, rfl, rfl, opposite⟩
    | _ => cases same
  | text s =>
    cases q with
    | text t => exact .inl (congrArg text (of_decide_eq_true same))
    | _ => cases same
  | numbers ms =>
    cases q with
    | numbers ns => exact .inl (congrArg numbers (of_decide_eq_true same))
    | _ => cases same

/-- Lists of parameters that are the same one by one are equal, unless they hold the two zeros at
one place. -/
theorem allSame_cases {ps qs : List Parameter} (same : allSame ps qs = true) :
    ps = qs ∨ ∃ pair ∈ ps.zip qs, Opposite pair.1 pair.2 := by
  induction ps generalizing qs with
  | nil =>
    cases qs with
    | nil => exact .inl rfl
    | cons q qs => cases same
  | cons p ps ih =>
    cases qs with
    | nil => cases same
    | cons q qs =>
      rw [allSame, Bool.and_eq_true] at same
      rcases same_cases same.1 with rfl | opposite
      · rcases ih same.2 with rfl | ⟨pair, mem, opposite⟩
        · exact .inl rfl
        · exact .inr ⟨pair, List.mem_cons_of_mem _ mem, opposite⟩
      · exact .inr ⟨(p, q), List.mem_cons_self, opposite⟩

end Parameter

/-! ### Kinds -/

namespace Operator

/-- An operator without what its parameters say. -/
def blank : Operator α → Operator α
  | unary f => unary (match f with
    | .addScalar _ => .addScalar 0
    | .mulScalar _ => .mulScalar 0
    | .sqrt _ => .sqrt 0
    | .swish _ => .swish 0
    | .prelu _ => .prelu 0
    | .clip _ => .clip 0
    | f => f)
  | joint f => joint (match f with
    | .compare _ => .compare .lt
    | f => f)
  | clipGradient _ => clipGradient 0
  | cast _ => cast .float64
  | debug _ _ => debug ⟨"", ""⟩ .graph
  | reduce r _ => reduce r 0
  | scalarProduct _ => scalarProduct 0
  | softmax _ => softmax 0
  | logSoftmax _ => logSoftmax 0
  | crossEntropy _ => crossEntropy 0
  | layerNorm _ => layerNorm 0
  | topK _ _ _ _ => topK 0 0 true true
  | matMul _ _ _ batched => matMul true true 0 batched
  | transpose _ => transpose []
  | reshape _ => reshape []
  | concatenate _ => concatenate 0
  | slice _ _ => slice 0 (.refused "")
  | indexSelect _ => indexSelect 0
  | gather _ => gather 0
  | op => op

/-- The operator of a kind without its parameters, unless callers supply it. -/
def ofKind? : String → Option (Operator α)
  | "Neg" => some (unary .neg)
  | "ScalarAdd" => some (unary (.addScalar 0))
  | "ScalarMult" => some (unary (.mulScalar 0))
  | "Sqrt" => some (unary (.sqrt 0))
  | "Square" => some (unary .square)
  | "Abs" => some (unary .abs)
  | "Exp" => some (unary .exp)
  | "Log" => some (unary .log)
  | "Sin" => some (unary .sin)
  | "Cos" => some (unary .cos)
  | "Tan" => some (unary .tan)
  | "Sigmoid" => some (unary .sigmoid)
  | "Swish" => some (unary (.swish 0))
  | "ReLU" => some (unary .relu)
  | "PReLU" => some (unary (.prelu 0))
  | "Clip" => some (unary (.clip 0))
  | "Plus" => some (joint .plus)
  | "Minus" => some (joint .minus)
  | "Mult" => some (joint .mult)
  | "Div" => some (joint .div)
  | "Maximum" => some (joint .maximum)
  | "Minimum" => some (joint .minimum)
  | "LogAddExp" => some (joint .logAddExp)
  | "Compare" => some (joint (.compare .lt))
  | "Tanh" => some (joint .tanh)
  | "Highway" => some (joint .highway)
  | "ClipGradient" => some (clipGradient 0)
  | "StopGradient" => some stopGradient
  | "Cast" => some (cast .float64)
  | "Debug" => some (debug ⟨"", ""⟩ .graph)
  | "Reduce[sum]" => some (reduce .sum 0)
  | "Reduce[mean]" => some (reduce .mean 0)
  | "Reduce[std]" => some (reduce .std 0)
  | "Reduce[var]" => some (reduce .var 0)
  | "Reduce[max]" => some (reduce .max 0)
  | "Reduce[min]" => some (reduce .min 0)
  | "Reduce[prod]" => some (reduce .prod 0)
  | "Reduce[logsumexp]" => some (reduce .logSumExp 0)
  | "ScalarProduct" => some (scalarProduct 0)
  | "Softmax" => some (softmax 0)
  | "LogSoftmax" => some (logSoftmax 0)
  | "CrossEntropy" => some (crossEntropy 0)
  | "LayerNorm" => some (layerNorm 0)
  | "TopK" => some (topK 0 0 true true)
  | "BDot" => some (matMul true true 0 true)
  | "Dot" => some (matMul true true 0 false)
  | "Transpose" => some (transpose [])
  | "Reshape" => some (reshape [])
  | "Concatenate" => some (concatenate 0)
  | "Slice" => some (slice 0 (.refused ""))
  | "IndexSelect" => some (indexSelect 0)
  | "Gather" => some (gather 0)
  | "ElementwiseOperator" => some (unspecified true)
  | "Operator" => some (unspecified false)
  | _ => none

/-- Whether an operator holds functions that a caller supplies. -/
def isCustom : Operator α → Bool
  | custom _ _ _ _ _ => true
  | _ => false

theorem ofKind?_kind {p : Operator α} (own : p.isCustom = false) : ofKind? p.kind = some p.blank := by
  cases p with
  | unary f => cases f <;> rfl
  | joint f => cases f <;> rfl
  | reduce r => cases r <;> rfl
  | matMul _ _ _ batched => cases batched <;> rfl
  | unspecified shaped => cases shaped <;> rfl
  | custom => cases own
  | _ => rfl

/-- The first letters of the kinds of custom operators are no other operator's. -/
theorem ofKind?_custom (name : String) :
    (ofKind? ("Lambda[" ++ name ++ "]") : Option (Operator α)) = none := by
  have other : ∀ s : String, s.toList.take 3 ≠ ['L', 'a', 'm'] → "Lambda[" ++ name ++ "]" ≠ s := by
    rintro s letters rfl
    exact letters (by simp)
  unfold ofKind?
  split
  all_goals first | rfl | exact absurd (by assumption) (other _ (by decide))

theorem kind_custom {p : Operator α} (custom : p.isCustom = true) :
    (ofKind? p.kind : Option (Operator α)) = none := by
  cases p with
  | custom _ _ _ _ name => exact ofKind?_custom name
  | _ => cases custom

/-- Operators of one kind differ in parameters only. -/
theorem blank_of_kind {p q : Operator α} (same : p.kind = q.kind) :
    p.isCustom = q.isCustom ∧ (p.isCustom = false → p.blank = q.blank) := by
  cases first : p.isCustom with
  | true =>
    cases second : q.isCustom with
    | true => exact ⟨rfl, nofun⟩
    | false =>
      have none := kind_custom first
      rw [same, ofKind?_kind second] at none
      cases none
  | false =>
    cases second : q.isCustom with
    | true =>
      have none := kind_custom second
      rw [← same, ofKind?_kind first] at none
      cases none
    | false =>
      have found := ofKind?_kind first
      rw [same, ofKind?_kind second] at found
      exact ⟨rfl, fun _ => (Option.some.inj found).symm⟩

end Operator

end ReverseMode
