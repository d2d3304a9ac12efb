/-!
# Padded texts

A text in a column of a given width is followed by as many spaces as it
lacks. A text that is too long for the column stays whole.
-/

namespace RandomAccessMachine

/-- A text followed by spaces up to a width. -/
def padded (width : Nat) (text : String) : String :=
  text ++ String.ofList (List.replicate (width - text.length) ' ')

theorem length_padded (width : Nat) (text : String) :
    (padded width text).length = max width text.length := by
  simp [padded]
  omega

end RandomAccessMachine
