import PetProject.InotifyModule.Catalogue

/-!
# The columns of the catalogue

Besides its name a song has a uid, which is the hash of the quoted name, and the folder in which it
lies. The ids are renumbered all the time; the other columns are written once, and fit each other in
every row that the commands of the watching thread write.
-/

namespace PetProject.Database

open Framework

/-- What a row says of its song. -/
def SongRow.columns (row : SongRow) : Text × Text × Text :=
  (row.songName, row.songUid, row.songUrl)

section Columns

variable {P : Text × Text × Text → Prop} {db : Db}

end Columns

end PetProject.Database

namespace PetProject.InotifyModule

open Framework Database Handler

variable {hash : Hash}

def songUid (hash : Hash) (name : Text) : Text := decimal (hash (quoted name)).toNat

/-- The uid is the one of the name, and the song lies in the folder. -/
def Fits (hash : Hash) (folder : Text) (columns : Text × Text × Text) : Prop :=
  columns.2 = (songUid hash columns.1, folder)

namespace Watched

variable {s t : Watched}

end Watched

end PetProject.InotifyModule
