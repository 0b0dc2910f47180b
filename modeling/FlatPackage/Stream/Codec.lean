/-
  FlatPackage.Stream.Codec — how the body of a compressed chunk is made and opened.

  The stream's reader and writer take the codec as a parameter: what they do with chunks
  does not depend on how well, or even whether, a body is compressed.
-/

import FlatPackage.Xz.File
import FlatPackage.Xz.Writer

namespace FlatPackage.Stream

structure Codec where
  compress : Bytes → Bytes
  decompress : Bytes → Except Xz.Flaw Bytes

def Codec.xz : Codec := ⟨Xz.compress, Xz.decompress⟩

end FlatPackage.Stream
