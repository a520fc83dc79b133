import ProbeForge.Database.Server
import ProbeForge.Json.Form
import ProbeForge.Text.Blank

/-!
# Server logs as JSON
-/

namespace ProbeForge.Database

open Json

/-- The space in a statement does not matter, and neither does a statement where only the calls are
looked at. -/
def Event.toJson (withSql : Bool) : Event → Json
  | .connect dsn _ => .list ["connect", dsn]
  | .execute _ sql arguments _ =>
    let statement : List Json := if withSql then [Text.collapse sql] else []
    .list (.text "execute" :: statement ++ (arguments.map Json.list).toList)
  | .close _ => .list ["close"]

def Server.logJson (withSql : Bool) (s : Server) : Json := many (·.toJson withSql) s.log

end ProbeForge.Database
