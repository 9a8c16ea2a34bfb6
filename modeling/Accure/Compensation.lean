import Mathlib.Data.List.Sort
import Accure.Validity

set_option autoImplicit false

namespace Accure

def applyEdit (text : List Char) : TextEdit → List Char
  | .insert pos ch => text.insertIdx (min pos text.length) ch
  | .delete pos => if pos < text.length then text.eraseIdx pos else text

def renderStep (valid : Dot → Option Bool) (text : List Char) (d : DocOp) : List Char :=
  if !(valid d.dot).getD false then text else applyEdit text d.edit

def renderText (ops : List Operation) (valid : Dot → Option Bool) : String :=
  let docs := (ops.filterMap Operation.asDocument).insertionSort (fun a b => a.dot ≤ b.dot)
  String.ofList (docs.foldl (renderStep valid) [])

end Accure
