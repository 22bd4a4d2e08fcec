/-
# What a register has to return

The right results of a list of reads and writes are known beforehand: a write returns
nothing and a read the number written last, zero at first (`Register.answers`). Numbers
are returned as text, and the text of a number reads as the number
(`Text.readInteger?_toString`). So the verifier accepts the right results, as far as
they go (`Register.readsFit_answers`).
-/
import Interleave.Sample.Register

namespace Interleave

/-! ### Numbers as text -/

namespace Text

/-- The digits of a number stand for it. -/
theorem digitsValue?_toDigits (n : Nat) : digitsValue? (Nat.toDigits 10 n) = some n := by
  have hdigits : (Nat.toDigits 10 n).all Char.isDigit = true :=
    List.all_eq_true.mpr fun c hc => Nat.isDigit_of_mem_toDigits (by decide) (by decide) hc
  have hvalue := @Nat.ofDigitChars_ten_toDigits n
  rw [Nat.ofDigitChars_eq_foldl] at hvalue
  unfold digitsValue?
  rw [if_neg (by simp [Nat.toDigits_ne_nil, hdigits])]
  simpa [Nat.mul_comm] using hvalue

/-- Digits come without a sign. -/
theorem head_toDigits_ne {n : Nat} {c : Char} {l : List Char} (h : Nat.toDigits 10 n = c :: l) :
    c ≠ '-' ∧ c ≠ '+' := by
  have hmem : c ∈ Nat.toDigits 10 n := h ▸ List.mem_cons_self
  have hdigit : c.isDigit = true := Nat.isDigit_of_mem_toDigits (by decide) (by decide) hmem
  constructor
  · rintro rfl
    exact absurd hdigit (by decide)
  · rintro rfl
    exact absurd hdigit (by decide)

theorem readNatural?_repr {bound n : Nat} (h : n < bound) : readNatural? bound n.repr = some n := by
  have hlist : n.repr.toList = Nat.toDigits 10 n := by simp [Nat.repr_eq_ofList_toDigits]
  have hvalue := digitsValue?_toDigits n
  unfold readNatural?
  rw [hlist]
  cases hdigits : Nat.toDigits 10 n with
  | nil => exact absurd hdigits Nat.toDigits_ne_nil
  | cons c l =>
    have hplus := (head_toDigits_ne hdigits).2
    rw [hdigits] at hvalue
    split
    · rename_i heq
      cases heq
      exact absurd rfl hplus
    · dsimp only
      rw [hvalue]
      simp [h]

/-- **What is written of an integer reads as the integer.** -/
theorem readInteger?_toString (n : Int64) : readInteger? (toString n.toInt) = some n := by
  have hword := n.ofInt_toInt
  have hupper := n.toInt_lt
  have hlower := n.le_toInt
  rw [Int.toString_eq_repr]
  cases hn : n.toInt with
  | ofNat m =>
    rw [hn] at hword hupper
    have hm : m < 1 <<< 63 := by
      rw [Nat.shiftLeft_eq, Nat.one_mul]
      exact Int.ofNat_lt.mp hupper
    have hlist : m.repr.toList = Nat.toDigits 10 m := by simp [Nat.repr_eq_ofList_toDigits]
    show readInteger? m.repr = some n
    unfold readInteger?
    split
    · rename_i heq
      rw [hlist] at heq
      exact absurd rfl (head_toDigits_ne heq).1
    · rw [readNatural?_repr hm]
      exact congrArg some hword
  | negSucc m =>
    rw [hn] at hword hlower
    have hm : m + 1 ≤ 1 <<< 63 := by
      rw [Nat.shiftLeft_eq, Nat.one_mul]
      omega
    have hlist : ("-" ++ (m + 1).repr).toList = '-' :: Nat.toDigits 10 (m + 1) := by
      simp [Nat.repr_eq_ofList_toDigits]
    show readInteger? ("-" ++ (m + 1).repr) = some n
    unfold readInteger?
    rw [hlist]
    simp only [digitsValue?_toDigits]
    rw [Option.filter_some_pos (by simpa using hm)]
    exact congrArg some hword

end Text

namespace Register

/-! ### Right results -/

/-- What a register holds after an operation, `written` before it. -/
def writtenBy (written : Int64) (operation : Operation) : Int64 :=
  if operation.name = "write" then (Client.argument? operation).getD 0 else written

/-- What was written last in a list of operations, `written` at first. -/
def lastWritten (written : Int64) (operations : List Operation) : Int64 :=
  operations.foldl writtenBy written

/-- The right result of an operation on a register that holds `written`. -/
def answer (written : Int64) (operation : Operation) : Answer :=
  if operation.name = "write" then .void else .value (numberText written)

/-- The right results of operations on a register that holds `written` at first. -/
def answers (written : Int64) : List Operation → List Answer
  | [] => []
  | operation :: rest => answer written operation :: answers (writtenBy written operation) rest

theorem length_answers (operations : List Operation) (written : Int64) :
    (answers written operations).length = operations.length := by
  induction operations generalizing written with
  | nil => rfl
  | cons operation rest ih => rw [answers, List.length_cons, List.length_cons, ih]

theorem answers_concat (operations : List Operation) (operation : Operation) (written : Int64) :
    answers written (operations ++ [operation]) =
      answers written operations ++ [answer (lastWritten written operations) operation] := by
  induction operations generalizing written with
  | nil => rfl
  | cons first rest ih => exact congrArg (answer written first :: ·) (ih _)

theorem lastWritten_concat (operations : List Operation) (operation : Operation) (written : Int64) :
    lastWritten written (operations ++ [operation]) =
      writtenBy (lastWritten written operations) operation := by
  simp [lastWritten]

/-! ### The verifier -/

/-- Operations that are not finished may have any result. -/
theorem readsFit_missing {results : List Answer} (h : ∀ r ∈ results, r = .missing) :
    ∀ (operations : List Operation) (written : Int64),
      readsFit written (operations.zip results) = true := by
  induction results with
  | nil => simp [readsFit]
  | cons r rest ih =>
    obtain ⟨rfl, hrest⟩ := List.forall_mem_cons.mp h
    intro operations written
    cases operations with
    | nil => rfl
    | cons operation operations =>
      rw [List.zip_cons_cons]
      unfold readsFit
      by_cases hwrite : operation.name = "write"
      · rw [if_pos hwrite]
        exact ih hrest operations _
      · rw [if_neg hwrite]
        exact ih hrest operations _

/-- **The verifier accepts right results**, as far as they go. -/
theorem readsFit_answers {results : List Answer} (h : ∀ r ∈ results, r = .missing) :
    ∀ (operations : List Operation) (k : Nat) (written : Int64),
      readsFit written (operations.zip (answers written (operations.take k) ++ results)) = true
  | [], _, _ => rfl
  | operation :: operations, 0, written => readsFit_missing h _ written
  | operation :: operations, k + 1, written => by
    have hrest := readsFit_answers h operations k (writtenBy written operation)
    rw [List.take_succ_cons, answers, List.cons_append, List.zip_cons_cons]
    unfold readsFit
    by_cases hwrite : operation.name = "write"
    · have hwritten : writtenBy written operation = (Client.argument? operation).getD 0 :=
        if_pos hwrite
      rw [if_pos hwrite, ← hwritten]
      exact hrest
    · have hwritten : writtenBy written operation = written := if_neg hwrite
      have hanswer : answer written operation = .value (numberText written) := if_neg hwrite
      have hread : Text.readInteger? (numberText written) = some written :=
        Text.readInteger?_toString written
      rw [hwritten] at hrest
      rw [if_neg hwrite, hwritten, hanswer]
      simp [hread, hrest]

end Register

end Interleave
