/-
# A handler on its own

Runs a handler without a cluster and lists the requests it makes. Each one is
answered as in a cluster where nothing has happened yet and every operation can
be completed.
-/
import Interleave.Node
import Interleave.Text.Quoted

namespace Interleave

namespace Handler

variable {μ α : Type}

/-- The requests of a handler as text, and its result if it has one. -/
def rehearse (messageText : μ → String) : Handler μ α → List String × Option α
  | done a => ([], some a)
  | raise _ => ([], none)
  | hang => ([], none)
  | send message target rest =>
    let (calls, result) := rehearse messageText rest
    (("send " ++ messageText message ++ " to " ++ target.text) :: calls, result)
  | log text rest =>
    let (calls, result) := rehearse messageText rest
    (("log " ++ text) :: calls, result)
  | complete value rest =>
    let (calls, result) := rehearse messageText (rest true)
    (("complete " ++ Text.option Text.quoted value) :: calls, result)
  | events rest => rehearse messageText (rest [])
  | logs rest => rehearse messageText (rest [])

end Handler

end Interleave
