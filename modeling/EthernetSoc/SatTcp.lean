import EthernetSoc.Pbuf
import EthernetSoc.SatBus
import EthernetSoc.WireFormat

/-!
# The receive callback of the solver firmware

`satRecv` follows the callback statement by statement: it flattens the chain
into 512 bytes, checks the header, clears the 200 literal registers, parses the
body with one register store per literal, loads the dimensions, starts the
solver, polls the done bit, and builds the reply. Every register access is a
complete Wishbone transaction on the slave, at a time the environment chooses;
the accesses to the debug LEDs are cycles in which the slave is not strobed.

The poll loop is cut off by a fuel argument, and `none` is a poll that has not
ended yet.
-/

namespace EthernetSoc.SatTcp
open WireFormat SatSlave

/-- When the accesses of one call happen. The first LED access keeps the bus
busy for at least one cycle before any access to the slave. -/
structure Env where
  entry : List Idle
  entry_ne : entry ≠ []
  access : ℕ → Timing
  exit : List Idle

structure Soc where
  slave : SatSlave.State
  accesses : ℕ

abbrev satCtrl : ℕ := 0
abbrev satNVars : ℕ := 1
abbrev satNClauses : ℕ := 2
abbrev satModel : ℕ := 3
abbrev satLitBase : ℕ := 8

inductive PcbCall
  | close
  | recved (n : ℕ)
  | write (data : List Byte)
  | output
  deriving DecidableEq

def sent (calls : List PcbCall) : List (List Byte) :=
  calls.filterMap fun
    | .write data => some data
    | _ => none

/-! ## Flattening and the header -/

def flattenLoop (buf : List Byte) : List Pbuf → List Byte
  | [] => buf
  | q :: p =>
    let copy := if buf.length + q.len > bufSize then bufSize - buf.length else q.len
    let buf := buf ++ q.payload.take copy
    if buf.length ≥ bufSize then buf else flattenLoop buf p

def flatten (p : List Pbuf) : List Byte := flattenLoop [] p

def headerOk (buf : List Byte) : Bool :=
  if buf.length < 4 || buf.getD 0 0 != protoStart then false
  else
    let nVars := buf.getD 1 0
    let nClauses := buf.getD 2 0
    !(nVars == 0 || nVars.toNat > maxVars || nClauses == 0 || nClauses.toNat > maxClauses)

/-! ## The register accesses -/

section Access
variable (env : Env)

def writeReg (m : Soc) (k : ℕ) (v : BitVec 32) : Soc :=
  ⟨(target.transact (env.access m.accesses) ⟨true, BitVec.ofNat 9 k, v⟩ m.slave).1, m.accesses + 1⟩

def readReg (m : Soc) (k : ℕ) : Soc × BitVec 32 :=
  let r := target.transact (env.access m.accesses) ⟨false, BitVec.ofNat 9 k, 0⟩ m.slave
  (⟨r.1, m.accesses + 1⟩, r.2)

def clearLoop (m : Soc) : Soc :=
  (List.range (maxClauses * clauseLen)).foldl (fun m i => writeReg env m (satLitBase + i) 0) m

def litWord (b : Byte) : BitVec 32 :=
  let var : Byte := (b &&& 0x7F) - 1
  let neg : Byte := (b >>> 7) &&& 1
  (1 <<< 5) ||| (neg.setWidth 32 <<< 4) ||| var.setWidth 32

def parseLoop (buf : List Byte) (nClauses : ℕ) (m : Soc) (pos clause lit : ℕ) : Soc :=
  if h : pos < buf.length ∧ clause < nClauses then
    let b := buf.get ⟨pos, h.1⟩
    if b = protoEnd then m
    else if b = protoTerm then parseLoop buf nClauses m (pos+1) (clause+1) 0
    else if lit < clauseLen then
      parseLoop buf nClauses (writeReg env m (satLitBase + clause * clauseLen + lit) (litWord b))
        (pos+1) clause (lit+1)
    else parseLoop buf nClauses m (pos+1) clause lit
  else m
termination_by buf.length - pos

def pollDone : ℕ → Soc → Option Soc
  | 0, _ => none
  | fuel+1, m =>
    let r := readReg env m satCtrl
    if r.2 &&& 1 ≠ 0 then some r.1 else pollDone fuel r.1

end Access

/-! ## The reply and the whole callback -/

def respByte (model : BitVec 32) (i : ℕ) : Byte :=
  let val : Byte := ((model >>> i) &&& 1).setWidth 8
  (val <<< 7) ||| (BitVec.ofNat 8 (i+1) &&& 0x7F)

def buildResp (isSat : Bool) (nVars : ℕ) (model : BitVec 32) : List Byte :=
  if isSat then respSat :: (List.range nVars).map (respByte model) ++ [protoEnd]
  else [respUnsat, protoEnd]

abbrev errOk : ℤ := 0

def satRecv (env : Env) (fuel : ℕ) (s : SatSlave.State) (p : List Pbuf) (err : ℤ) :
    Option (SatSlave.State × List PcbCall) :=
  if err ≠ errOk ∨ p = [] then some (target.idle s env.exit, [.close])
  else
    let s := target.idle s env.entry
    let buf := flatten p
    if !headerOk buf then some (target.idle s env.exit, [.recved (Pbuf.totLen p)])
    else
      let nVars := buf.getD 1 0
      let nClauses := buf.getD 2 0
      let m := clearLoop env ⟨s, 0⟩
      let m := parseLoop env buf nClauses.toNat m 3 0 0
      let m := writeReg env m satNVars (nVars.setWidth 32)
      let m := writeReg env m satNClauses (nClauses.setWidth 32)
      let m := writeReg env m satCtrl 1
      match pollDone env fuel m with
      | none => none
      | some m =>
        let ctrl := readReg env m satCtrl
        let model := readReg env ctrl.1 satModel
        let isSat := ((ctrl.2 >>> 1) &&& 1) != 0
        some (target.idle model.1.slave env.exit,
          [.recved (Pbuf.totLen p), .write (buildResp isSat nVars.toNat model.2), .output])

end EthernetSoc.SatTcp
