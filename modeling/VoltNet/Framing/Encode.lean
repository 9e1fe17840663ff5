import VoltNet.Lib.Stuffing

/-!
# The sending side of the frame format

`volt_net_defs.hpp` fixes one escape value and the two characters that may follow it;
`write_byte` and `end_msg` of `net_serialize.hpp` are the only functions that put bytes into an
outgoing message.

* `writeBytes_eq`   any number of `write_byte` calls appends the stuffing of the bytes;
* `encode_eq`       a payload closed with `end_msg` is one frame;
* `encodeAll_eq`    a list of payloads written one after the other is a stream of frames.
-/

namespace VoltNet
open Stuffing

/-! ## `volt_net_defs.hpp` -/

/-- `net_word`, a single byte -/
abbrev NetWord := UInt8
/-- contents of the `std::vector<net_word>` behind a `message_ptr` -/
abbrev Message := List NetWord
abbrev ConId := UInt16

def escapeVal : NetWord := 255
def msgEndEscaped : NetWord := 0
def msgOrigiChar : NetWord := 255

/-- the codes of the frame format -/
def codes : Codes NetWord := ⟨escapeVal, msgOrigiChar, msgEndEscaped, by decide⟩

/-! ## `net_serialize.hpp` -/

def writeByte (v : NetWord) (data : Message) : Message :=
  let data := data ++ [v]
  if v = escapeVal then data ++ [msgOrigiChar] else data

def endMsg (data : Message) : Message := data ++ [escapeVal] ++ [msgEndEscaped]

/-- every byte of a payload through `write_byte` -/
def writeBytes (p : List NetWord) (data : Message) : Message :=
  p.foldl (fun data v => writeByte v data) data

/-- one payload, closed with `end_msg` -/
def encode (p : List NetWord) : Message := endMsg (writeBytes p [])

/-- the byte stream of a list of payloads -/
def encodeAll (ps : List (List NetWord)) : List NetWord := ps.flatMap encode

/-! ## in terms of the stuffing codec -/

theorem writeByte_eq (v : NetWord) (data : Message) : writeByte v data = data ++ stuff codes v := by
  unfold writeByte
  by_cases h : v = escapeVal
  · have hs : stuff codes v = [v, msgOrigiChar] := by rw [h]; exact stuff_esc codes
    rw [if_pos h, hs, List.append_assoc]
    rfl
  · rw [if_neg h, stuff_of_ne codes v h]

@[simp] theorem writeBytes_nil (data : Message) : writeBytes [] data = data := rfl

theorem writeBytes_cons (v : NetWord) (p : List NetWord) (data : Message) :
    writeBytes (v :: p) data = writeBytes p (writeByte v data) := rfl

theorem writeBytes_eq (p : List NetWord) (data : Message) :
    writeBytes p data = data ++ stuffAll codes p := by
  induction p generalizing data with
  | nil => rw [writeBytes_nil, stuffAll_nil, List.append_nil]
  | cons v p ih => rw [writeBytes_cons, ih, writeByte_eq, stuffAll_cons, List.append_assoc]

theorem endMsg_eq (data : Message) : endMsg data = data ++ [codes.esc, codes.fin] := by
  unfold endMsg
  rw [List.append_assoc]
  rfl

theorem encode_eq (p : List NetWord) : encode p = frame codes p := by
  rw [encode, endMsg_eq, writeBytes_eq, List.nil_append, frame]

theorem encodeAll_eq (ps : List (List NetWord)) : encodeAll ps = stream codes ps :=
  List.flatMap_congr fun p _ => encode_eq p

end VoltNet
