/-! Calls made on a state one after the other. A history has the answer to each call, and the state
behind the last one; a call sees what the calls before it have left and nothing else. -/
namespace Cutout

variable {σ α β : Type}

def callAll (call : σ → α → β × σ) : List α → σ → List β × σ
  | [], s => ([], s)
  | a :: rest, s =>
    let (answer, s) := call s a
    let (answers, s) := callAll call rest s
    (answer :: answers, s)

theorem callAllAppend (call : σ → α → β × σ) (calls more : List α) (s : σ) :
    callAll call (calls ++ more) s =
      let first := callAll call calls s
      let second := callAll call more first.2
      (first.1 ++ second.1, second.2) := by
  induction calls generalizing s with
  | nil => rfl
  | cons a rest ih => simp only [List.cons_append, callAll, ih]

theorem answersLength (call : σ → α → β × σ) (calls : List α) (s : σ) :
    (callAll call calls s).1.length = calls.length := by
  induction calls generalizing s with
  | nil => rfl
  | cons a rest ih => exact congrArg (· + 1) (ih (call s a).2)

theorem answerAt (call : σ → α → β × σ) (before : List α) (a : α) (after : List α) (s : σ) :
    (callAll call (before ++ a :: after) s).1[before.length]? =
      some (call (callAll call before s).2 a).1 := by
  rw [callAllAppend, ← answersLength call before s, List.getElem?_append_right (Nat.le_refl _),
    Nat.sub_self]
  rfl

end Cutout
