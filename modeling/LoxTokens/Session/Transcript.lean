import LoxTokens.Output.Listing

/-!
What is printed on the two output streams of a program.
-/

namespace LoxTokens

/-- The texts printed to the output and to the error stream. -/
@[ext]
structure Transcript where
  out : Text := []
  err : Text := []
  deriving DecidableEq, Repr

namespace Transcript

/-- What is printed first, followed by what is printed next. -/
def append (a b : Transcript) : Transcript := ⟨a.out ++ b.out, a.err ++ b.err⟩

instance : Append Transcript := ⟨append⟩

@[simp] theorem out_append (a b : Transcript) : (a ++ b).out = a.out ++ b.out := rfl

@[simp] theorem err_append (a b : Transcript) : (a ++ b).err = a.err ++ b.err := rfl

/-- Nothing is printed. -/
def empty : Transcript := {}

@[simp] theorem append_empty (a : Transcript) : a ++ empty = a := by
  ext1 <;> simp [empty]

@[simp] theorem empty_append (a : Transcript) : empty ++ a = a := rfl

theorem append_assoc (a b c : Transcript) : a ++ b ++ c = a ++ (b ++ c) := by
  ext1 <;> simp

/-- What is printed one after the other. -/
def concat (ts : List Transcript) : Transcript := ts.foldr append empty

@[simp] theorem concat_nil : concat [] = empty := rfl

@[simp] theorem concat_cons (t : Transcript) (ts : List Transcript) :
    concat (t :: ts) = t ++ concat ts := rfl

@[simp] theorem concat_append (ss ts : List Transcript) :
    concat (ss ++ ts) = concat ss ++ concat ts := by
  induction ss with
  | nil => simp
  | cons s ss ih => simp [ih, append_assoc]

/-- The listing and the reports of a text. -/
def ofSource (colored : Bool) (source : Text) : Transcript :=
  ⟨listing source, reports colored source⟩

end Transcript

end LoxTokens
