/-! A text cut at separators: its maximal runs of other characters. -/
namespace PolicyShell

/-- The maximal runs of characters that are no separators, in order. -/
def runs (isSeparator : Char → Bool) : List Char → List (List Char)
  | [] => []
  | c :: rest =>
    if isSeparator c then runs isSeparator rest
    else match rest with
      | [] => [[c]]
      | next :: _ =>
        if isSeparator next then [c] :: runs isSeparator rest
        else (runs isSeparator rest).modifyHead (c :: ·)

/-- The fields of a value under a set of separators. Separators at either end give no field. -/
def splitFields (separators value : String) : List String :=
  (runs separators.toList.contains value.toList).map String.ofList

/-- Elements as one text, with the first separator, if there is one, between them. -/
def joinFields (separators : String) (elements : List String) : String :=
  (String.ofList (separators.toList.take 1)).intercalate elements

end PolicyShell
