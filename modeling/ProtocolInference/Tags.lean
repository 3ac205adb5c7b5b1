/-!
Remarks in parentheses behind a printed item.
-/

namespace ProtocolInference

/-- The tags in parentheses behind a blank, or nothing where there are
none. -/
def tagsText (tags : List String) : String :=
  if tags.isEmpty then "" else " (" ++ String.intercalate ", " tags ++ ")"

end ProtocolInference
