import SourceBundle.Error
import SourceBundle.Project.Basic
import SourceBundle.Text.Blank
import SourceBundle.Text.Search

/-! # Project files

A text is decoded to a project, or it is rejected with a message. Some messages get a hint, which
is chosen by the words in the message.
-/
namespace SourceBundle.Project

/-- What decodes projects. For a text that is none it gives a message. -/
class Decoder where
  decode : List Char → Except String Project

/-- The hint that goes with a message. -/
def hint? (message : String) : Option String :=
  if Text.contains "unknown field".toList message.toList then
    some ("Valid keys are: " ++ String.intercalate ", " fieldNames)
  else if Text.contains "charset".toList message.toList then
    some "Supported charsets: utf-8, iso-8859-1, us-ascii"
  else none

/-- Reads a project from a text; a blank text is the empty project. -/
def parse [Decoder] (text : List Char) : Except Error Project :=
  if (Text.trim text).isEmpty then .ok {}
  else (Decoder.decode text).mapError fun message => .config message (hint? message)

end SourceBundle.Project
