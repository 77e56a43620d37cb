import MessageQueue.Common.File
import MessageQueue.Common.Payload

/-! `MessageMapper`: the data file of one queue, a sequence of records that are an 8-byte length
and that many bytes of payload, and the compaction of that file through a temporary one. -/
namespace MessageQueue
open Base Base.Bytes

def dataFileSuffix : String := ".message_data"
def tmpFileSuffix : String := ".message_data.tmp"

/-- The two file names of a queue. They never name the same file. -/
structure MessageMapper where
  nameDataFile : String
  nameTempFile : String
  distinct : resolve nameTempFile ≠ resolve nameDataFile

namespace MessageMapper

/-- The names that the constructor builds from the directory and the queue name. -/
def named (path queueName : String) : MessageMapper :=
  let path := if path.toList.getLast? ≠ some '/' then path ++ "/" else path
  { nameDataFile := path ++ queueName ++ dataFileSuffix
    nameTempFile := path ++ queueName ++ tmpFileSuffix
    distinct := resolve_append_ne _ _ _ (by decide) (by decide) (by decide) (by decide) (by decide) }

/-- Append one record. The message learns its place only when both writes succeeded; places are
32-bit numbers. -/
def insert (d : Disk) (filename : String) (message : Message) : Bool × Message × Disk :=
  let load := message.payload.serializeAsString
  let offset := FileHelper.size d filename
  let length := load.length
  match FileHelper.write d filename (leBytes 8 length) offset with
  | (false,d) => (false,message,d)
  | (true,d) =>
    match FileHelper.write d filename load (offset+8) with
    | (false,d) => (false,message,d)
    | (true,d) =>
      (true,{message with offset := UInt32.ofNat (offset+8), length := UInt32.ofNat length},d)

variable (m : MessageMapper)

def creatFile (d : Disk) : Bool × Disk :=
  if FileHelper.exists' d m.nameDataFile then (true,d)
  else FileHelper.createFile d m.nameDataFile

/-- The constructor's effect on the disk. -/
def construct (d : Disk) : Disk :=
  if FileHelper.exists' d m.nameDataFile then d else (m.creatFile d).2

def insertDataFile (d : Disk) (message : Message) : Bool × Message × Disk :=
  insert d m.nameDataFile message

/-- Clear the valid flag of a message, in memory and over its own record in the file. -/
def remove (d : Disk) (message : Message) : Bool × Message × Disk :=
  let message := {message with payload := {message.payload with valid := "0"}}
  let newLoad := message.payload.serializeAsString
  if newLoad.length ≠ message.length.toNat then (false,message,d)
  else (true,message,(FileHelper.write d m.nameDataFile newLoad message.offset.toNat).2)

/-- The loop of `load`. The buffer of the length keeps what a short read leaves in it, and so
does the buffer of the payload. Every round consumes at least the eight bytes of a length, so as
many rounds as the file has bytes are enough. -/
def loadLoop (d : Disk) : ℕ → ℕ → ℕ → List Message → List Message
  | 0,_,_,result => result
  | fuel+1,offset,length,result =>
    if offset < FileHelper.size d m.nameDataFile then
      let length := leNat (FileHelper.read d m.nameDataFile (leBytes 8 length) offset)
      let offset := offset+8
      let load := FileHelper.read d m.nameDataFile (List.replicate length 0) offset
      let offset := offset+length
      let message : Message := {payload := (Payload.parseFromString load).1}
      if message.payload.valid = "0" then loadLoop d fuel offset length result
      else loadLoop d fuel offset length (result ++ [message])
    else result

/-- The messages of the data file that are still valid, in file order. -/
def load (d : Disk) : List Message :=
  m.loadLoop d (FileHelper.size d m.nameDataFile) 0 0 []

/-- Append each message to the temporary file, up to the first failure. -/
def insertTempFiles (d : Disk) : List Message → Bool × List Message × Disk
  | [] => (true,[],d)
  | message::rest =>
    match insert d m.nameTempFile message with
    | (false,message,d) => (false,message::rest,d)
    | (true,message,d) =>
      let r := insertTempFiles d rest
      (r.1,message::r.2.1,r.2.2)

/-- Rewrite the data file with its valid records only. -/
def garbageCollection (d : Disk) : List Message × Disk :=
  let result := m.load d
  let d := (FileHelper.createFile d m.nameTempFile).2
  match m.insertTempFiles d result with
  | (false,result,d) => (result,d)
  | (true,result,d) =>
    match FileHelper.removeFile d m.nameDataFile with
    | (false,d) => (result,d)
    | (true,d) => (result,(FileHelper.rename d m.nameTempFile m.nameDataFile).2)

def removeFile (d : Disk) : Disk :=
  (FileHelper.removeFile (FileHelper.removeFile d m.nameDataFile).2 m.nameTempFile).2

end MessageMapper
end MessageQueue
