import PetProject.DbModule.ExecCommand
import PetProject.Exchange.FolderService
import PetProject.InotifyModule.EventBuffer

/-!
# The folder behind the queue

The watching thread does not wait for the commands that it queues. What a client sees of the folder
when the service has come to rest, whichever workers have executed the commands and in whatever
order.
-/

namespace PetProject.Exchange

open Framework Database Handler ServerHttp InotifyModule DbModule

section Watch

variable {hash : Hash} {s t : Watched}

end Watch

/-! ## The rows -/

section Rows

variable {N : Nat} {Conn : Type} {hash : Hash} {folder : Text} {start : Db} {s t : Service N Conn}

end Rows

end PetProject.Exchange
