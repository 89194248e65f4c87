import Switchyard.Codec.Record
import Switchyard.Toml.Reader

/-
  Switchyard.Config.File — the configuration as a file holds it.

  The file is a document in the format of `Switchyard.Toml`, in UTF-8. Whatever is wrong
  with it, from a file that is not there to a setting of the wrong type, the defaults
  hold; a file is never taken in part.
-/

namespace Switchyard.Config

def ofText? (s : String) : Option Config := Toml.parse? s >>= Config.ofJson?

def ofFile (bytes : Option ByteArray) : Config :=
  ((bytes >>= String.fromUTF8?) >>= ofText?).getD {}

end Switchyard.Config
