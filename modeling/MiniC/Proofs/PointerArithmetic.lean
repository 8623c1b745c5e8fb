/-
  Pointer arithmetic and the order of pointers.

  A pointer is a signed word, and its address is the unsigned number with the same bits.  Offsets and
  differences are computed on addresses, as signed 64-bit numbers, and come to what exact arithmetic
  comes to.  Comparisons are those of signed words, so they follow the addresses only where both lie
  on the same side of the middle of the address range.

  * `Run.offsetAddress_eq` and `Engine.pointerDiff_eq`: the 64-bit numbers are exact, or the result is
    refused as the exact one is.
  * `pointer_arithmetic_exact`: sums are exact and are undone by differences.
  * `pointer_order_by_half`: what the order of pointers is.
-/
import MiniC.Proofs.ConstantFolding
import MiniC.Proofs.Fuel
import MiniC.Session

namespace MiniC

open Run

/-- The operators that compare by size. -/
def BinaryOp.isOrder : BinaryOp → Bool
  | lt | le | gt | ge => true
  | _ => false

/-! ## Words and addresses -/

/-- The two numbers that the bits of a word stand for. -/
theorem Word.toInt_eq_toNat (w : Word) : w.toInt =
    if (toAddress w).toNat < 2147483648 then ((toAddress w).toNat : Int)
    else (toAddress w).toNat - 4294967296 := by
  have cond := BitVec.toInt_eq_toNat_cond w.toBitVec
  change w.toInt = if 2 * (toAddress w).toNat < 4294967296 then ((toAddress w).toNat : Int)
    else (toAddress w).toNat - 4294967296 at cond
  rw [cond]
  split <;> split <;> omega

namespace Address

theorem toInt_wide (a : Address) : a.wide.toInt = a.toNat := by
  have small := a.toNat_lt
  exact Int64.toInt_ofNat_of_lt (by omega)

theorem ofInt?_eq_some {x : Int} {a : Address} : ofInt? x = some a ↔ (a.toNat : Int) = x := by
  have small := a.toNat_lt
  unfold ofInt?
  constructor
  · intro h
    split at h
    · obtain rfl := Option.some.inj h
      rw [UInt32.toNat_ofNat']
      omega
    · cases h
  · rintro rfl
    rw [if_pos (by omega), Int.toNat_natCast, UInt32.ofNat_toNat]

theorem ofInt?_eq_none {x : Int} : ofInt? x = none ↔ ¬ (0 ≤ x ∧ x < 4294967296) := by
  unfold ofInt?
  split <;> simp [*]

end Address

theorem Value.address_pointer (ty : Ty) (a : Address) : (Value.pointer ty a).address = a :=
  UInt32.toUInt32_toInt32 a

/-- The two addresses lie in the same half of the address range. -/
def Address.Beside (a b : Address) : Prop := a.toNat < 2147483648 ↔ b.toNat < 2147483648

instance (a b : Address) : Decidable (a.Beside b) := inferInstanceAs (Decidable (_ ↔ _))

/-- The order of two words is that of their addresses if these lie in one half of the range, else it
is the opposite one. -/
theorem BinaryOp.result_words {op : BinaryOp} (hop : op.isOrder = true) (v w : Word) :
    op.result v.toInt w.toInt =
      if (Word.toAddress v).Beside (Word.toAddress w) then
        op.result (Word.toAddress v).toNat (Word.toAddress w).toNat
      else op.result (Word.toAddress w).toNat (Word.toAddress v).toNat := by
  have small := (Word.toAddress v).toNat_lt
  have small' := (Word.toAddress w).toNat_lt
  have ofv := v.toInt_eq_toNat
  have ofw := w.toInt_eq_toNat
  by_cases near : (Word.toAddress v).Beside (Word.toAddress w)
  · have same : v.toInt - w.toInt = (Word.toAddress v).toNat - (Word.toAddress w).toNat := by
      unfold Address.Beside at near
      split at ofv <;> split at ofw <;> omega
    rw [if_pos near]
    cases op with
    | lt | le | gt | ge =>
      simp only [result]
      split <;> split <;> omega
    | _ => cases hop
  · -- One word is negative, and its address is the higher one.
    have turned : v.toInt < w.toInt ∧ (Word.toAddress w).toNat < (Word.toAddress v).toNat ∨
        w.toInt < v.toInt ∧ (Word.toAddress v).toNat < (Word.toAddress w).toNat := by
      unfold Address.Beside at near
      split at ofv <;> split at ofw <;> omega
    rw [if_neg near]
    cases op with
    | lt | le | gt | ge =>
      simp only [result]
      split <;> split <;> omega
    | _ => cases hop

/-! ## 64-bit numbers -/

/-- The number `index` elements of `scale` bytes behind an address, or before it. -/
def Address.offset (a : Address) (index : Word) (scale : Nat) (subtract : Bool) : Int :=
  if subtract then a.toNat - index.toInt * scale else a.toNat + index.toInt * scale

/-- The product of a word and a size of 32 bits has 64 bits, with `2 ^ 31` to spare above. -/
theorem Word.mul_bounds (w : Word) {n : Nat} (hn : n < 4294967296) :
    -9223372034707292160 ≤ w.toInt * n ∧ w.toInt * n ≤ 9223372030412324865 := by
  obtain ⟨low, high⟩ : Word.Holds w.toInt := w.holds_toInt
  have zero : (0 : Int) ≤ n := Int.natCast_nonneg n
  have below := Int.mul_le_mul_of_nonneg_right low zero
  have above := Int.mul_le_mul_of_nonneg_right high zero
  omega

theorem Word.toInt_mul_ofNat (w : Word) {n : Nat} (hn : n < 4294967296) :
    (w.toInt64 * Int64.ofNat n).toInt = w.toInt * n := by
  obtain ⟨low, high⟩ := w.mul_bounds hn
  rw [Int64.toInt_mul, Int32.toInt_toInt64, Int64.toInt_ofNat_of_lt (by omega)]
  exact Int.bmod_eq_of_le (by omega) (by omega)

/-- **The 64-bit sum or difference is refused where the exact one is**, and equal to it elsewhere.
Only at the very end of its range does a difference wrap around, to a number below zero. -/
theorem Run.offsetAddress_eq (base : Value) (index : Word) {scale : Nat} (subtract : Bool)
    (loc : Location) (hs : scale < 4294967296) : offsetAddress base index scale subtract loc =
      require (Address.ofInt? (base.address.offset index scale subtract))
        (.overflow (if subtract then "-" else "+") loc) := by
  have small := base.address.toNat_lt
  obtain ⟨low, high⟩ := index.mul_bounds hs
  unfold offsetAddress Address.offset
  cases subtract with
  | false =>
    have exact_ : (base.address.wide + index.toInt64 * Int64.ofNat scale).toInt =
        base.address.toNat + index.toInt * scale := by
      rw [Int64.toInt_add, Address.toInt_wide, Word.toInt_mul_ofNat index hs]
      exact Int.bmod_eq_of_le (by omega) (by omega)
    simp only [Bool.false_eq_true, if_false, exact_]
  | true =>
    have wraps : (base.address.wide - index.toInt64 * Int64.ofNat scale).toInt =
        (base.address.toNat - index.toInt * scale : Int).bmod 18446744073709551616 := by
      rw [Int64.toInt_sub, Address.toInt_wide, Word.toInt_mul_ofNat index hs]
    have same : Address.ofInt? (base.address.wide - index.toInt64 * Int64.ofNat scale).toInt =
        Address.ofInt? (base.address.toNat - index.toInt * scale) := by
      rw [wraps, Int.bmod_def]
      by_cases fits : base.address.toNat - index.toInt * scale < 9223372036854775808
      · congr 1
        split <;> omega
      · have none₁ : ∀ x : Int, x < 0 ∨ 4294967296 ≤ x → Address.ofInt? x = none := fun x hx =>
          Address.ofInt?_eq_none.2 (by omega)
        rw [none₁ (base.address.toNat - index.toInt * scale) (by omega)]
        apply none₁
        split <;> omega
    simp only [if_true, same]

/-- **The 64-bit quotient of a difference of addresses is the exact one.** -/
theorem Engine.pointerDiff_eq (left right : Value) {scale : Nat} (loc : Location) (hs : 0 < scale)
    (hs' : scale < 4294967296) : pointerDiff left right scale loc =
      require (Word.ofInt? ((left.address.toNat - right.address.toNat : Int).tdiv scale))
        (.overflow "-" loc) := by
  have small := left.address.toNat_lt
  have small' := right.address.toNat_lt
  have bytes : (left.address.wide - right.address.wide).toInt =
      left.address.toNat - right.address.toNat := by
    rw [Int64.toInt_sub, Address.toInt_wide, Address.toInt_wide]
    exact Int.bmod_eq_of_le (by omega) (by omega)
  have quotient : ((left.address.wide - right.address.wide) / Int64.ofNat (max scale 1)).toInt =
      (left.address.toNat - right.address.toNat : Int).tdiv scale := by
    have shrinks := Int.natAbs_tdiv_le_natAbs (left.address.toNat - right.address.toNat : Int) scale
    rw [Nat.max_eq_left hs, Int64.toInt_div, bytes, Int64.toInt_ofNat_of_lt (by omega)]
    exact Int.bmod_eq_of_le (by omega) (by omega)
  simp only [pointerDiff, quotient]

/-! ## Evaluation -/

/-- With enough fuel the expression `e` comes to `v`, which leads from `m` to `m'`. -/
def Env.Evaluates (env : Env) (m : Machine) (e : Expr) (v : Value) (m' : Machine) : Prop :=
  ∃ fuel, (engine env fuel).solve e m = .ok v m'

/-- With enough fuel the expression `e` fails for `f`. -/
def Env.Refuses (env : Env) (m : Machine) (e : Expr) (f : Fault) (m' : Machine) : Prop :=
  ∃ fuel, (engine env fuel).solve e m = .error (.fault f) m'

theorem solve_fuel {env : Env} {e : Expr} {m : Machine} {fuel more : Nat}
    (h : ¬ ((engine env fuel).solve e).Spent m) (hle : fuel ≤ more) :
    (engine env more).solve e m = (engine env fuel).solve e m := by
  induction hle with
  | refl => rfl
  | @step n _ ih =>
    rcases Likeness.solve ((engine_fuel env n).execute e) m with spent | same
    · refine absurd ?_ h
      unfold Spent at spent ⊢
      rwa [← ih]
    · exact same.trans ih

namespace Env.Evaluates
variable {env : Env} {m m₁ m₂ : Machine} {e l r : Expr} {v w p q : Value}

theorem lasts {fuel more : Nat} (h : (engine env fuel).solve e m = .ok v m₁) (hle : fuel ≤ more) :
    (engine env more).solve e m = .ok v m₁ := by
  rw [solve_fuel ?_ hle, h]
  rintro ⟨n, hn⟩
  cases h.symm.trans hn

/-- An expression comes to one value only. -/
theorem unique (h : env.Evaluates m e v m₁) (h' : env.Evaluates m e w m₂) : v = w := by
  obtain ⟨n, hn⟩ := h
  obtain ⟨k, hk⟩ := h'
  cases (lasts hn (Nat.le_max_left n k)).symm.trans (lasts hk (Nat.le_max_right n k))
  rfl

theorem not_refuses (h : env.Evaluates m e v m₁) {f : Fault} : ¬ env.Refuses m e f m₂ := by
  rintro ⟨k, hk⟩
  obtain ⟨n, hn⟩ := h
  have failed : (engine env (max n k)).solve e m = .error (.fault f) m₂ := by
    rw [solve_fuel ?_ (Nat.le_max_right n k), hk]
    rintro ⟨_, spent⟩
    cases hk.symm.trans spent
  cases (lasts hn (Nat.le_max_left n k)).symm.trans failed

/-- Two operands are evaluated by one engine. -/
theorem both (hl : env.Evaluates m l p m₁) (hr : env.Evaluates m₁ r q m₂) :
    ∃ fuel, (engine env fuel).solve l m = .ok p m₁ ∧ (engine env fuel).solve r m₁ = .ok q m₂ := by
  obtain ⟨n, hn⟩ := hl
  obtain ⟨k, hk⟩ := hr
  exact ⟨max n k, lasts hn (Nat.le_max_left n k), lasts hk (Nat.le_max_right n k)⟩

theorem const (env : Env) (m : Machine) (w : Word) (ty : Ty) (loc : Location) :
    env.Evaluates m (.mk (.const w) ty loc) ⟨ty, w⟩ m := ⟨1, rfl⟩

variable {scale : Nat} {loc : Location} {ty : Ty}

/-- A pointer that is moved comes to the exact address, or is refused. -/
theorem offset (hl : env.Evaluates m l p m₁) (hr : env.Evaluates m₁ r q m₂)
    (hs : scale < 4294967296) (subtract : Bool) :
    (∀ a : Address, (a.toNat : Int) = p.address.offset q.word scale subtract →
      env.Evaluates m (.mk (.pointerOffset l r scale subtract) ty loc) (.pointer ty a) m₂) ∧
    (¬ (0 ≤ p.address.offset q.word scale subtract ∧
        p.address.offset q.word scale subtract < 4294967296) →
      env.Refuses m (.mk (.pointerOffset l r scale subtract) ty loc)
        (.overflow (if subtract then "-" else "+") loc) m₂) := by
  obtain ⟨n, hn, hk⟩ := both hl hr
  constructor
  · intro a ha
    refine ⟨n + 1, ?_⟩
    have moved : offsetAddress p q.word scale subtract loc m₂ = .ok a m₂ := by
      rw [offsetAddress_eq p q.word subtract loc hs, Address.ofInt?_eq_some.2 ha]
      rfl
    have rule : (engine env (n + 1)).execute (.mk (.pointerOffset l r scale subtract) ty loc) m =
        .ok (.value (.pointer ty a)) m₂ :=
      (bind_of_ok hn).trans ((bind_of_ok hk).trans (bind_of_ok moved))
    exact bind_of_ok rule
  · intro out
    refine ⟨n + 1, ?_⟩
    have refused : offsetAddress p q.word scale subtract loc m₂ =
        .error (.fault (.overflow (if subtract then "-" else "+") loc)) m₂ := by
      rw [offsetAddress_eq p q.word subtract loc hs, Address.ofInt?_eq_none.2 out]
      rfl
    have rule : (engine env (n + 1)).execute (.mk (.pointerOffset l r scale subtract) ty loc) m =
        .error (.fault (.overflow (if subtract then "-" else "+") loc)) m₂ :=
      (bind_of_ok hn).trans ((bind_of_ok hk).trans (bind_of_error refused))
    exact bind_of_error rule

/-- What a pointer that is moved comes to. -/
theorem offset_iff (hl : env.Evaluates m l p m₁) (hr : env.Evaluates m₁ r q m₂)
    (hs : scale < 4294967296) (subtract : Bool) :
    env.Evaluates m (.mk (.pointerOffset l r scale subtract) ty loc) v m₂ ↔
      ∃ a : Address, v = .pointer ty a ∧ (a.toNat : Int) = p.address.offset q.word scale subtract := by
  constructor
  · intro h
    by_cases fits : 0 ≤ p.address.offset q.word scale subtract ∧
        p.address.offset q.word scale subtract < 4294967296
    · have ha := Address.ofInt?_eq_some.1 (if_pos fits)
      exact ⟨_, h.unique ((offset hl hr hs subtract).1 _ ha), ha⟩
    · exact absurd ((offset hl hr hs subtract).2 fits) h.not_refuses
  · rintro ⟨a, rfl, ha⟩
    exact (offset hl hr hs subtract).1 a ha

/-- The difference of two pointers that are `x` elements apart is `x`. -/
theorem diff (hl : env.Evaluates m l p m₁) (hr : env.Evaluates m₁ r q m₂) (hs : 0 < scale)
    (hs' : scale < 4294967296) {x : Word}
    (hx : (p.address.toNat - q.address.toNat : Int) = x.toInt * scale) :
    env.Evaluates m (.mk (.pointerDiff l r scale) ty loc) ⟨ty, x⟩ m₂ := by
  obtain ⟨n, hn, hk⟩ := both hl hr
  refine ⟨n + 1, ?_⟩
  have exact_ : Engine.pointerDiff p q scale loc m₂ = .ok x m₂ := by
    rw [Engine.pointerDiff_eq p q loc hs hs', hx, Int.mul_tdiv_cancel _ (by omega),
      Word.ofInt?_eq_some.2 ⟨x.holds_toInt, rfl⟩]
    rfl
  have rule : (engine env (n + 1)).execute (.mk (.pointerDiff l r scale) ty loc) m =
      .ok (.value ⟨ty, x⟩) m₂ :=
    (bind_of_ok hn).trans ((bind_of_ok hk).trans (bind_of_ok exact_))
  exact bind_of_ok rule

/-- The difference of a pointer that was moved forwards and the pointer it was moved from. -/
theorem diff_moved {t : Ty} {a : Address} (hl : env.Evaluates m l (.pointer t a) m₁)
    (hr : env.Evaluates m₁ r q m₂) (same : q.word = p.word) (hs : 0 < scale)
    (hs' : scale < 4294967296) {x : Word} (ha : (a.toNat : Int) = p.address.toNat + x.toInt * scale) :
    env.Evaluates m (.mk (.pointerDiff l r scale) ty loc) ⟨ty, x⟩ m₂ := by
  have from_ : q.address = p.address := congrArg Word.toAddress same
  refine diff hl hr hs hs' ?_
  rw [Value.address_pointer, from_, ha]
  omega

/-- A comparison looks at words. -/
theorem order {op : BinaryOp} (hop : op.isOrder = true) (hl : env.Evaluates m l p m₁)
    (hr : env.Evaluates m₁ r q m₂) : ∃ x : Word,
      x.toInt = op.result p.word.toInt q.word.toInt ∧
      env.Evaluates m (.mk (.binary op l r) ty loc) ⟨ty, x⟩ m₂ := by
  obtain ⟨n, hn, hk⟩ := both hl hr
  have undecided : op.shortcut p.word = none := by
    cases op <;> first | rfl | cases hop
  have undivided : op.divides = false := by
    cases op <;> first | rfl | cases hop
  obtain ⟨x, hx⟩ : ∃ x, op.apply p.word q.word = some x := by
    cases op <;> first | exact ⟨_, rfl⟩ | cases hop
  refine ⟨x, (BinaryOp.apply_eq_some.1 hx).2.2.2, n + 1, ?_⟩
  have result : (engine env n).binary op l r loc m = .ok x m₂ := by
    refine (bind_of_ok hn).trans ?_
    simp only [undecided, undivided, Bool.false_eq_true, false_and, if_false]
    refine (bind_of_ok hk).trans ?_
    rw [hx]
    rfl
  have rule : (engine env (n + 1)).execute (.mk (.binary op l r) ty loc) m =
      .ok (.value ⟨ty, x⟩) m₂ := bind_of_ok result
  exact bind_of_ok rule

end Env.Evaluates

/-! ## Pointer expressions -/

/-- The expression is a pointer to elements of `n` bytes. -/
structure Context.Points (c : Context) (e : Expr) (n : Nat) : Prop where
  pointee : ∃ t, e.ty.pointee = some t ∧ c.program.sizeOf? t = some n
  positive : 0 < n
  small : n < 4294967296

namespace Ty
variable {t : Ty}

theorem not_isArithmetic_of_isPointer (h : t.isPointer = true) : ¬ t.isArithmetic = true := by
  obtain ⟨base, stars⟩ := t
  cases stars <;> simp_all [isPointer, isArithmetic, int, char]

end Ty

namespace Context.Points
variable {c : Context} {P Q I : Expr} {n : Nat}

theorem isPointer (h : c.Points P n) : P.ty.isPointer = true := by
  obtain ⟨t, ht, -⟩ := h.pointee
  exact Ty.isPointer_of_pointee ht

theorem of_ty (h : c.Points P n) (hQ : Q.ty = P.ty) : c.Points Q n :=
  ⟨hQ ▸ h.pointee, h.positive, h.small⟩

/-- Lowering of `P + I` or `P - I`. -/
theorem pointerOffset (h : c.Points P n) (subtract : Bool) (node : Node) :
    Lower.pointerOffset P I subtract node c =
      .ok (.expr (.mk (.pointerOffset P I n subtract) P.ty node.start), c) := by
  obtain ⟨t, ht, hsize⟩ := h.pointee
  have hv : t.isVoid = false := by
    by_contra hv
    rw [Bool.not_eq_false, Ty.isVoid, decide_eq_true_eq] at hv
    subst hv
    cases hsize
  unfold Lower.pointerOffset
  simp only [ht, hv, Bool.false_eq_true, if_false]
  unfold Lower.sizeOf Lower.ask
  simp only [bind, StateT.bind, Except.bind, hsize]
  rfl

theorem combine_add (h : c.Points P n) (hI : I.ty.isArithmetic = true) (node : Node) :
    Lower.combine .add P I node c =
      .ok (.expr (.mk (.pointerOffset P I n false) P.ty node.start), c) := by
  have not_ := Ty.not_isArithmetic_of_isPointer h.isPointer
  simp only [Lower.combine, not_, false_and, Bool.false_eq_true, if_false, h.isPointer, hI, and_self,
    if_true]
  exact h.pointerOffset false node

theorem combine_sub (h : c.Points P n) (hI : I.ty.isArithmetic = true) (node : Node) :
    Lower.combine .sub P I node c =
      .ok (.expr (.mk (.pointerOffset P I n true) P.ty node.start), c) := by
  have not_ := Ty.not_isArithmetic_of_isPointer h.isPointer
  simp only [Lower.combine, not_, false_and, Bool.false_eq_true, if_false, h.isPointer, hI, and_self,
    if_true]
  exact h.pointerOffset true node

theorem combine_diff (h : c.Points P n) (hQ : Q.ty = P.ty) (node : Node) :
    Lower.combine .sub P Q node c =
      .ok (.expr (.mk (.pointerDiff P Q n) Ty.int node.start), c) := by
  obtain ⟨t, ht, hsize⟩ := h.pointee
  have not_ := Ty.not_isArithmetic_of_isPointer h.isPointer
  simp only [Lower.combine, not_, hQ, and_false, Bool.false_eq_true, if_false, h.isPointer, and_self,
    if_true]
  unfold Lower.pointerDiff
  simp only [ht]
  unfold Lower.sizeOf Lower.ask
  simp only [bind, StateT.bind, Except.bind, hsize]
  rfl

end Context.Points

/-- A comparison of pointers is a plain operator. -/
theorem Lower.combine_order {c : Context} {op : BinaryOp} (hop : op.isOrder = true) {L R : Expr}
    (hL : L.ty.isPointer = true) (hR : R.ty = L.ty) (node : Node) :
    Lower.combine op L R node c = .ok (.expr (.mk (.binary op L R) Ty.int node.start), c) := by
  have scalar := Ty.isScalar_of_isPointer hL
  have plain : (if L.ty.isScalar ∧ R.ty.isScalar then
      Lower.expression (.binary op L R) Ty.int node
    else Lower.fail (.operands op L.ty R.ty) node.start) c =
      .ok (.expr (.mk (.binary op L R) Ty.int node.start), c) := by
    rw [hR, if_pos ⟨scalar, scalar⟩]
    rfl
  cases op with
  | lt | le | gt | ge => exact plain
  | _ => cases hop

/-! ## The laws -/

section
variable {env : Env} {c : Context} {P P' I I' Q : Expr} {s : Nat}

/-- **Pointer arithmetic is exact and its operations invert each other.**  For pointers to elements of
`s` bytes: an address that is moved by 64-bit arithmetic is the exact one, or is refused where the
exact one has no 32 bits.  Lowering accepts `P + I`, `(P + I) - P`, `(P + I) - I`, `Q - P` and
`P + (Q - P)`; the first comes to the exact address, and wherever it comes to anything the next two
come to the number and to the pointer.  If `q` is `k` elements away from `p` and a word holds `k`, the
last one comes to `q`. -/
theorem pointer_arithmetic_exact (node node' : Node) (hP : c.Points P s) (hP' : P'.ty = P.ty)
    (hQ : Q.ty = P.ty) (hI : I.ty.isArithmetic = true) (hI' : I'.ty.isArithmetic = true) :
    (∀ (base : Value) (index : Word) (subtract : Bool) (loc : Location) (m : Machine),
      (∀ a m', offsetAddress base index s subtract loc m = .ok a m' ↔
        m = m' ∧ (a.toNat : Int) = base.address.offset index s subtract) ∧
      ∀ f m', offsetAddress base index s subtract loc m = .error f m' →
        ¬ (0 ≤ base.address.offset index s subtract ∧
          base.address.offset index s subtract < 4294967296) ∧
        f = .fault (.overflow (if subtract then "-" else "+") loc) ∧ m = m') ∧
    ∃ sum count back gap there,
      Lower.combine .add P I node c = .ok (.expr sum, c) ∧
      Lower.combine .sub sum P' node' c = .ok (.expr count, c) ∧
      Lower.combine .sub sum I' node' c = .ok (.expr back, c) ∧
      Lower.combine .sub Q P' node c = .ok (.expr gap, c) ∧
      Lower.combine .add P gap node' c = .ok (.expr there, c) ∧
      ∀ {m m₁ m₂ : Machine} {p : Value}, env.Evaluates m P p m₁ →
        (∀ i, env.Evaluates m₁ I i m₂ →
          (∀ v, env.Evaluates m sum v m₂ ↔ ∃ a : Address, v = .pointer P.ty a ∧
            (a.toNat : Int) = p.address.toNat + i.word.toInt * s) ∧
          ∀ v m₃, env.Evaluates m sum v m₂ →
            (∀ p', env.Evaluates m₂ P' p' m₃ → p'.word = p.word →
              env.Evaluates m count ⟨Ty.int, i.word⟩ m₃) ∧
            ∀ i', env.Evaluates m₂ I' i' m₃ → i'.word = i.word →
              env.Evaluates m back ⟨P.ty, p.word⟩ m₃) ∧
        ∀ q p' m₃, env.Evaluates m₁ Q q m₂ → env.Evaluates m₂ P' p' m₃ → p'.word = p.word →
          ∀ k : Int, (q.address.toNat - p.address.toNat : Int) = k * s → Word.Holds k →
            env.Evaluates m there ⟨P.ty, q.word⟩ m₃ := by
  have hsum : c.Points (.mk (.pointerOffset P I s false) P.ty node.start) s := hP.of_ty rfl
  refine ⟨fun base index subtract loc m => ?_, _, _, _, _, _, hP.combine_add hI node,
    hsum.combine_diff hP' node', hsum.combine_sub hI' node',
    (hP.of_ty hQ).combine_diff (hP'.trans hQ.symm) node, hP.combine_add rfl node',
    fun {m m₁ m₂ p} hp => ⟨fun i hi => ⟨fun v => ?_, fun v m₃ hv => ?_⟩, ?_⟩⟩
  · rw [offsetAddress_eq base index subtract loc hP.small]
    refine ⟨fun a m' => ?_, fun f m' h => ?_⟩
    · rw [require_eq_ok, Address.ofInt?_eq_some, and_comm]
    · obtain ⟨none_, rfl, rfl⟩ := require_eq_error.1 h
      exact ⟨Address.ofInt?_eq_none.1 none_, rfl, rfl⟩
  · exact Env.Evaluates.offset_iff hp hi hP.small false
  · obtain ⟨a, rfl, ha⟩ := (Env.Evaluates.offset_iff hp hi hP.small false).1 hv
    simp only [Address.offset, Bool.false_eq_true, if_false] at ha
    refine ⟨fun p' hp' same => Env.Evaluates.diff_moved hv hp' same hP.positive hP.small ha,
      fun i' hi' same => ?_⟩
    · refine (Env.Evaluates.offset hv hi' hP.small true).1 p.address ?_
      rw [same]
      change (p.address.toNat : Int) = a.toNat - i.word.toInt * s
      omega
  · intro q p' m₃ hq hp' same k hk fits
    obtain ⟨w, rfl⟩ := Word.exists_of_holds fits
    have gap : env.Evaluates m₁ (.mk (.pointerDiff Q P' s) Ty.int node.start) ⟨Ty.int, w⟩ m₃ :=
      Env.Evaluates.diff hq hp' hP.positive hP.small (by
        rwa [show p'.address = p.address from congrArg Word.toAddress same])
    refine (Env.Evaluates.offset hp gap hP.small false).1 q.address ?_
    change (q.address.toNat : Int) = p.address.toNat + w.toInt * s
    omega

/-- Elements of eight bytes near the end of the address range: one pointer lies five elements in front
of the other, and their words are -16 and -56. -/
theorem pointer_arithmetic_exact_high : ∃ sum count back gap there : Expr,
    let env : Env := ⟨.full, .standard, (Program.initial.addStruct ⟨"pair", [], 8⟩).2⟩
    let t : Ty := ⟨.struct "pair", 1⟩
    let P : Expr := .mk (.const (-16)) t .nowhere
    let Q : Expr := .mk (.const (-56)) t .nowhere
    let I : Expr := .mk (.const (-5)) Ty.int .nowhere
    let node : Node := .mk ⟨.additive, .nowhere⟩ .null
    let c := Context.building env.program
    Lower.combine .add P I node c = .ok (.expr sum, c) ∧
    Lower.combine .sub sum P node c = .ok (.expr count, c) ∧
    Lower.combine .sub sum I node c = .ok (.expr back, c) ∧
    Lower.combine .sub Q P node c = .ok (.expr gap, c) ∧
    Lower.combine .add P gap node c = .ok (.expr there, c) ∧
    let m := Machine.idle 0
    env.Evaluates m sum (.pointer t 4294967240) m ∧ env.Evaluates m count ⟨Ty.int, -5⟩ m ∧
    env.Evaluates m back ⟨t, -16⟩ m ∧ env.Evaluates m there ⟨t, -56⟩ m := by
  let env : Env := ⟨.full, .standard, (Program.initial.addStruct ⟨"pair", [], 8⟩).2⟩
  let node : Node := .mk ⟨.additive, .nowhere⟩ .null
  let m := Machine.idle 0
  have points : (Context.building env.program).Points (.mk (.const (-16)) ⟨.struct "pair", 1⟩ .nowhere)
      8 := ⟨⟨⟨.struct "pair", 0⟩, rfl, by decide +kernel⟩, by decide, by decide⟩
  have value : ∀ (w : Word) (ty : Ty), env.Evaluates m (.mk (.const w) ty .nowhere) ⟨ty, w⟩ m :=
    fun w ty => .const env m w ty .nowhere
  obtain ⟨-, sum, count, back, gap, there, h₁, h₂, h₃, h₄, h₅, laws⟩ :=
    @pointer_arithmetic_exact env _ _ _ (.mk (.const (-5)) Ty.int .nowhere)
      (.mk (.const (-5)) Ty.int .nowhere) (.mk (.const (-56)) ⟨.struct "pair", 1⟩ .nowhere) _ node node
      points rfl rfl rfl rfl
  obtain ⟨moves, reaches⟩ := laws (value (-16) _)
  obtain ⟨sums, inverts⟩ := moves _ (value (-5) _)
  have summed := (sums _).2 ⟨4294967240, rfl, by decide⟩
  obtain ⟨counts, returns⟩ := inverts _ m summed
  exact ⟨sum, count, back, gap, there, h₁, h₂, h₃, h₄, h₅, summed, counts _ (value (-16) _) rfl,
    returns _ (value (-5) _) rfl,
    reaches _ _ _ (value (-56) _) (value (-16) _) rfl (-5) (by decide)
      ⟨by decide, by decide⟩⟩

/-- **The order of pointers follows their addresses where both lie in one half of the address range**,
and is the opposite one elsewhere, for each of the four comparisons.  So for `0 < i`, wherever `P + I`
comes to a pointer, `P < P + I` comes to 1 unless the step from `p` leads out of the lower half, while
`(P + I) - P` always comes to `i`. -/
theorem pointer_order_by_half (node node' : Node) :
    (∀ {op L R}, op.isOrder = true → L.ty.isPointer = true → R.ty = L.ty →
      ∃ e, Lower.combine op L R node c = .ok (.expr e, c) ∧
        ∀ {m m₁ m₂ p q}, env.Evaluates m L p m₁ → env.Evaluates m₁ R q m₂ →
          ∃ w : Word, env.Evaluates m e ⟨Ty.int, w⟩ m₂ ∧
            (p.address.Beside q.address → w.toInt = op.result p.address.toNat q.address.toNat) ∧
            (¬ p.address.Beside q.address →
              w.toInt = op.result q.address.toNat p.address.toNat)) ∧
    (c.Points P s → P'.ty = P.ty → I.ty.isArithmetic = true →
      ∃ sum below count, Lower.combine .add P I node c = .ok (.expr sum, c) ∧
        Lower.combine .lt P' sum node' c = .ok (.expr below, c) ∧
        Lower.combine .sub sum P' node' c = .ok (.expr count, c) ∧
        ∀ {m m₁ m₂ p i v}, env.Evaluates m P p m₁ → env.Evaluates m₁ I i m₂ → 0 < i.word.toInt →
          env.Evaluates m sum v m₂ →
          (∀ m₀ p', env.Evaluates m₀ P' p' m → p'.word = p.word →
            env.Evaluates m₀ below ⟨Ty.int, if p.address.Beside v.address then 1 else 0⟩ m₂) ∧
          ∀ m₃ p', env.Evaluates m₂ P' p' m₃ → p'.word = p.word →
            env.Evaluates m count ⟨Ty.int, i.word⟩ m₃) := by
  constructor
  · intro op L R hop hL hR
    refine ⟨_, Lower.combine_order hop hL hR node, fun {m m₁ m₂ p q} hp hq => ?_⟩
    obtain ⟨w, hw, he⟩ := Env.Evaluates.order hop hp hq
    rw [BinaryOp.result_words hop] at hw
    refine ⟨w, he, fun near => ?_, fun far => ?_⟩
    · rwa [if_pos (show (Word.toAddress p.word).Beside (Word.toAddress q.word) from near)] at hw
    · rwa [if_neg (show ¬ (Word.toAddress p.word).Beside (Word.toAddress q.word) from far)] at hw
  · intro hP hP' hI
    have hsum : c.Points (.mk (.pointerOffset P I s false) P.ty node.start) s := hP.of_ty rfl
    have hpointer : P'.ty.isPointer = true := hP' ▸ hP.isPointer
    have hsame : (Expr.mk (.pointerOffset P I s false) P.ty node.start).ty = P'.ty := hP'.symm
    refine ⟨_, _, _, hP.combine_add hI node, Lower.combine_order rfl hpointer hsame node',
      hsum.combine_diff hP' node', fun {m m₁ m₂ p i v} hp hi positive hv => ?_⟩
    obtain ⟨a, rfl, ha⟩ := (Env.Evaluates.offset_iff hp hi hP.small false).1 hv
    simp only [Address.offset, Bool.false_eq_true, if_false] at ha
    have ahead : 0 < i.word.toInt * s := Int.mul_pos positive (by have := hP.positive; omega)
    refine ⟨fun m₀ p' hp' same => ?_, fun m₃ p' hp' same =>
      Env.Evaluates.diff_moved hv hp' same hP.positive hP.small ha⟩
    · have less : BinaryOp.lt.isOrder = true := rfl
      obtain ⟨w, hw, he⟩ := Env.Evaluates.order less hp' hv
      rw [BinaryOp.result_words less, same] at hw
      change w.toInt = if p.address.Beside a then BinaryOp.lt.result p.address.toNat a.toNat
        else BinaryOp.lt.result a.toNat p.address.toNat at hw
      have above : (p.address.toNat : Int) < a.toNat := by omega
      simp only [BinaryOp.result, if_pos above, if_neg (Int.not_lt.2 (Int.le_of_lt above))] at hw
      have word : w = if p.address.Beside a then 1 else 0 := by
        rw [← Int32.toInt_inj, hw]
        split <;> rfl
      exact word ▸ he

/-- One character further from the last address of the lower half: the order says no, and the
difference says one. -/
theorem pointer_order_by_half_crossing : ∃ sum below count : Expr,
    let env : Env := ⟨.full, .standard, .initial⟩
    let P : Expr := .mk (.const 2147483647) Ty.char.pointer .nowhere
    let I : Expr := .mk (.const 1) Ty.int .nowhere
    let node : Node := .mk ⟨.additive, .nowhere⟩ .null
    let c := Context.building env.program
    Lower.combine .add P I node c = .ok (.expr sum, c) ∧
    Lower.combine .lt P sum node c = .ok (.expr below, c) ∧
    Lower.combine .sub sum P node c = .ok (.expr count, c) ∧
    let m := Machine.idle 0
    env.Evaluates m below ⟨Ty.int, 0⟩ m ∧ env.Evaluates m count ⟨Ty.int, 1⟩ m := by
  let env : Env := ⟨.full, .standard, .initial⟩
  let node : Node := .mk ⟨.additive, .nowhere⟩ .null
  let m := Machine.idle 0
  have points : (Context.building env.program).Points
      (.mk (.const 2147483647) Ty.char.pointer .nowhere) 1 :=
    ⟨⟨Ty.char, rfl, by decide⟩, by decide, by decide⟩
  have value : ∀ (w : Word) (ty : Ty), env.Evaluates m (.mk (.const w) ty .nowhere) ⟨ty, w⟩ m :=
    fun w ty => .const env m w ty .nowhere
  obtain ⟨-, laws⟩ := @pointer_order_by_half env (.building env.program)
    (.mk (.const 2147483647) Ty.char.pointer .nowhere)
    (.mk (.const 2147483647) Ty.char.pointer .nowhere) (.mk (.const 1) Ty.int .nowhere) 1 node node
  obtain ⟨sum, below, count, h₁, h₂, h₃, compares⟩ := laws points rfl rfl
  have summed : env.Evaluates m sum (.pointer Ty.char.pointer 2147483648) m := by
    have lowered := Prod.mk.inj (Except.ok.inj (h₁.symm.trans (points.combine_add rfl node)))
    rw [Lowered.expr.inj lowered.1]
    exact (Env.Evaluates.offset (value 2147483647 _) (value 1 _) (by decide) false).1 _ (by decide)
  obtain ⟨lower, counts⟩ := compares (value 2147483647 _) (value 1 _) (by decide) summed
  exact ⟨sum, below, count, h₁, h₂, h₃, lower m _ (value 2147483647 _) rfl,
    counts m _ (value 2147483647 _) rfl⟩

end

/-- A pointer to the last address of the lower half, compared with its successor and taken from it. -/
def crossing : String :=
  "int below() \x7b char *p; p = NULL; p = p + 2147483647; return p < p + 1; \x7d "
    ++ "int apart() \x7b char *p; p = NULL; p = p + 2147483647; return (p + 1) - p; \x7d"

/-- **A pointer can be not less than its successor**, from which it is one element away. -/
theorem Session.crossing_not_below : ∃ t, (new .standard).compile crossing = .ok t ∧
    (t.callWithin 100 "below" []).1 = .ok (some 0) ∧
    (t.callWithin 100 "apart" []).1 = .ok (some 1) := by
  have run : ((new .standard).compile crossing).toOption.map (fun t =>
      ((t.callWithin 100 "below" []).1.toOption, (t.callWithin 100 "apart" []).1.toOption)) =
        some (some (some 0), some (some 1)) := by
    rw [compile_of_toList crossing
      (toList_append_of_eq (String.ofList_eq.1 rfl) (String.ofList_eq.1 rfl))]
    decide +kernel
  obtain ⟨t, compiled, answers⟩ := Except.exists_ok_of_map run
  obtain ⟨below, apart⟩ := Prod.mk.inj answers
  exact ⟨t, compiled, Except.eq_ok_of_toOption below, Except.eq_ok_of_toOption apart⟩

end MiniC
