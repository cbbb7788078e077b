import FdcSds.Schemes.Bytes
import FdcSds.Disk.Table

/-! The TNFS wire format (`include/tnfs_proto.h`).

    Every message is `session(2, LE) seq(1) cmd(1) payload`; a reply echoes the header and carries a
    status byte at offset 4. Client and server share this module and nothing else. -/

namespace FdcSds
open Schemes

/-! ### Framing -/

def tnfsHdrLen : ℕ := 4
def tnfsStatusOff : ℕ := 4
def tnfsIoChunk : ℕ := 1024
/-- The biggest message either side handles. -/
def tnfsMsgCap : ℕ := tnfsHdrLen + 4 + tnfsIoChunk

/-! ### Commands -/

def tnfsMount : UInt8 := 0x00
def tnfsUmount : UInt8 := 0x01
def tnfsOpendir : UInt8 := 0x10
def tnfsReaddir : UInt8 := 0x11
def tnfsClosedir : UInt8 := 0x12
def tnfsMkdir : UInt8 := 0x13
def tnfsRmdir : UInt8 := 0x14
def tnfsOpendirx : UInt8 := 0x17
def tnfsReaddirx : UInt8 := 0x18
def tnfsRead : UInt8 := 0x21
def tnfsWrite : UInt8 := 0x22
def tnfsClose : UInt8 := 0x23
def tnfsStat : UInt8 := 0x24
def tnfsLseek : UInt8 := 0x25
def tnfsUnlink : UInt8 := 0x26
def tnfsChmod : UInt8 := 0x27
def tnfsRename : UInt8 := 0x28
def tnfsOpen : UInt8 := 0x29

/-! ### OPEN flags -/

def tnfsORdonly : ℕ := 0x0001
def tnfsOWronly : ℕ := 0x0002
def tnfsORdwr : ℕ := 0x0003
def tnfsOAppend : ℕ := 0x0008
def tnfsOCreat : ℕ := 0x0100
def tnfsOTrunc : ℕ := 0x0200
def tnfsOExcl : ℕ := 0x0400

/-! ### Status codes -/

def tnfsOk : UInt8 := 0x00
def tnfsEnoent : UInt8 := 0x02
def tnfsEio : UInt8 := 0x03
def tnfsEbadf : UInt8 := 0x06
def tnfsEagain : UInt8 := 0x07
def tnfsEnomem : UInt8 := 0x08
def tnfsEacces : UInt8 := 0x09
def tnfsEbusy : UInt8 := 0x0A
def tnfsEexist : UInt8 := 0x0B
def tnfsEnotdir : UInt8 := 0x0C
def tnfsEisdir : UInt8 := 0x0D
def tnfsEinval : UInt8 := 0x0E
def tnfsEmfile : UInt8 := 0x10
def tnfsEnospc : UInt8 := 0x12
def tnfsErofs : UInt8 := 0x14
def tnfsEnametoolong : UInt8 := 0x15
def tnfsEnosys : UInt8 := 0x16
def tnfsEnotempty : UInt8 := 0x17
def tnfsEof : UInt8 := 0x21

/-! ### LSEEK and directory entries -/

def tnfsSeekSet : UInt8 := 0x00
def tnfsSeekCur : UInt8 := 0x01
def tnfsSeekEnd : UInt8 := 0x02
def tnfsDirentryDir : UInt8 := 0x01
def tnfsDirstatusEof : UInt8 := 0x01
def tnfsReaddirxFixed : ℕ := 13
def tnfsVerLo : UInt8 := 0x02
def tnfsVerHi : UInt8 := 0x01

/-! ### Strings on the wire -/

/-- The C string at the start of a byte string (up to its NUL, or to the end). -/
def cstr (c : Bytes) : CStr := (c.takeWhile (· ≠ 0)).map fun b => Char.ofNat b.toNat

/-- The bytes of a C string, without the NUL. -/
def CStr.bytes (s : CStr) : Bytes := s.map fun c => UInt8.ofNat c.toNat

/-- The header of a message. -/
def tnfsHeader (sid : UInt16) (seq cmd : UInt8) : Bytes := le16 sid.toNat ++ [seq, cmd]

end FdcSds
