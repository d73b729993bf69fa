import Latchwork.Hash.Crc32
import Latchwork.Text.Encoding

/-!
# Archives

A zip archive of stored members. Every member has the same time stamp, so an archive depends on the
names and contents of its members alone.
-/

namespace Latchwork

/-- A file of an archive. -/
structure ArchiveMember where
  name : Bytes
  content : Bytes
  deriving DecidableEq, Repr

namespace ArchiveMember

/-- The longest name of a member, in bytes. -/
def nameLimit : Nat := 0xFFFF

/-- The member for a file. Its name is recorded up to the first null character. -/
def ofFile (name : Text) (content : Bytes) : Except Error ArchiveMember := do
  let name ← Text.utf8 ⟨name.points.takeWhile (· != .char '\x00')⟩
  if nameLimit < name.length then throw .archiveField
  return ⟨name, content⟩

/-- A flag marks names outside ASCII as UTF-8. -/
def flags (m : ArchiveMember) : Nat := if m.name.all (· < 128) then 0 else 0x0800

/-- The fields that the local and the central header share: version needed, flags, method, time,
date, checksum, sizes and the length of the name. -/
def commonFields (m : ArchiveMember) : Bytes :=
  Bytes.littleEndian 2 20 ++ Bytes.littleEndian 2 m.flags ++ Bytes.littleEndian 2 0 ++
    Bytes.littleEndian 2 0 ++ Bytes.littleEndian 2 0x0021 ++
    Bytes.littleEndian 4 (Crc32.checksum m.content).toNat ++
    Bytes.littleEndian 4 m.content.length ++ Bytes.littleEndian 4 m.content.length ++
    Bytes.littleEndian 2 m.name.length

/-- The local header with the name and the content after it. -/
def localRecord (m : ArchiveMember) : Bytes :=
  [0x50, 0x4b, 3, 4] ++ m.commonFields ++ Bytes.littleEndian 2 0 ++ m.name ++ m.content

/-- The entry in the central directory: no extra field, no comment, the first disk, no internal
attributes, and permissions for the owner alone. -/
def centralRecord (m : ArchiveMember) (offset : Nat) : Bytes :=
  [0x50, 0x4b, 1, 2] ++ [20, 3] ++ m.commonFields ++ Bytes.littleEndian 2 0 ++
    Bytes.littleEndian 2 0 ++ Bytes.littleEndian 2 0 ++ Bytes.littleEndian 2 0 ++
    Bytes.littleEndian 4 0x01800000 ++ Bytes.littleEndian 4 offset ++ m.name

end ArchiveMember

namespace Archive

/-- The central directory of members whose local records start at an offset. -/
def centralDirectory : Nat → List ArchiveMember → Bytes
  | _, [] => []
  | offset, m :: rest =>
    m.centralRecord offset ++ centralDirectory (offset + m.localRecord.length) rest

/-- The bytes of an archive: local records, central directory, and the record of its end. -/
def bytes (members : List ArchiveMember) : Bytes :=
  let files := members.flatMap ArchiveMember.localRecord
  let directory := centralDirectory 0 members
  files ++ directory ++ [0x50, 0x4b, 5, 6] ++ Bytes.littleEndian 2 0 ++ Bytes.littleEndian 2 0 ++
    Bytes.littleEndian 2 members.length ++ Bytes.littleEndian 2 members.length ++
    Bytes.littleEndian 4 directory.length ++ Bytes.littleEndian 4 files.length ++
    Bytes.littleEndian 2 0

end Archive

end Latchwork
