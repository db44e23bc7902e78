import EthernetSoc.Lib.Cnf
import EthernetSoc.Pbuf

/-!
# The formula protocol as a format

A request body is a sequence of tokens: literals, clause terminators and the
end marker. `clauseAt` reads the clauses off the tokens with the conventions of
the device: nothing follows an end marker, a clause that never begins is empty,
and a clause need not be terminated. `literalOf` is the literal a byte means to
the device, which keeps four bits of the zero-based variable number and takes
its fifth bit for a negation.

`replyTo` is the reply the device owes to a byte string, or `none` where the
header is refused. No other module but the firmware proof says how it is made.
-/

namespace EthernetSoc.WireFormat

def protoStart : Byte := 0xAA
def protoEnd : Byte := 0xFF
def protoTerm : Byte := 0x00
def respSat : Byte := 0x01
def respUnsat : Byte := 0x00

abbrev maxVars : ℕ := 10
abbrev maxClauses : ℕ := 20
abbrev clauseLen : ℕ := 10
abbrev bufSize : ℕ := 512

inductive Token
  | literal (x : Cnf.Literal)
  | term
  | stop
  deriving DecidableEq

def varOf (b : Byte) : Byte := (b &&& 0x7F) - 1

def literalOf (b : Byte) : Cnf.Literal :=
  ⟨(varOf b).toNat % 16, b.getLsbD 7 || (varOf b).getLsbD 4⟩

def tokenOf (b : Byte) : Token :=
  if b = protoEnd then .stop else if b = protoTerm then .term else .literal (literalOf b)

def clauseAt : List Token → ℕ → Cnf.Clause
  | [], _ => []
  | .stop :: _, _ => []
  | .term :: _, 0 => []
  | .term :: ts, c+1 => clauseAt ts c
  | .literal x :: ts, 0 => x :: clauseAt ts 0
  | .literal _ :: ts, c+1 => clauseAt ts (c+1)

def formula (m : ℕ) (ts : List Token) : List Cnf.Clause :=
  (List.range m).map fun c => (clauseAt ts c).take clauseLen

def leastModel (n : ℕ) (f : List Cnf.Clause) : Option ℕ :=
  Cnf.least (2^n) fun a => Cnf.eval a.testBit f

def assignByte (i : ℕ) (val : Bool) : Byte :=
  (BitVec.ofBool val).setWidth 8 <<< 7 ||| (BitVec.ofNat 8 (i+1) &&& 0x7F)

def response (n : ℕ) : Option ℕ → List Byte
  | some a => respSat :: (List.range n).map (fun i => assignByte i (a.testBit i)) ++ [protoEnd]
  | none => [respUnsat, protoEnd]

/-- The header check, on the bytes that fit the receive buffer. -/
def Accepted (buf : List Byte) : Prop :=
  4 ≤ buf.length ∧ buf.getD 0 0 = protoStart ∧
    (buf.getD 1 0 ≠ 0 ∧ (buf.getD 1 0).toNat ≤ maxVars) ∧
    (buf.getD 2 0 ≠ 0 ∧ (buf.getD 2 0).toNat ≤ maxClauses)

instance (buf : List Byte) : Decidable (Accepted buf) := inferInstanceAs (Decidable (_ ∧ _))

def replyTo (bytes : List Byte) : Option (List Byte) :=
  let buf := bytes.take bufSize
  if Accepted buf then
    let n := (buf.getD 1 0).toNat
    some (response n (leastModel n (formula (buf.getD 2 0).toNat ((buf.drop 3).map tokenOf))))
  else none

theorem clauseAt_append_of_empty {rest : List Token} (h : ∀ c, clauseAt rest c = [])
    (ts : List Token) (c : ℕ) : clauseAt (ts ++ rest) c = clauseAt ts c := by
  induction ts generalizing c with
  | nil => exact h c
  | cons t ts ih =>
    cases t with
    | stop => rfl
    | term => cases c <;> simp [clauseAt, ih]
    | literal x => cases c <;> simp [clauseAt, ih]

theorem clauseAt_literals (xs : List Cnf.Literal) (ts : List Token) (c : ℕ) :
    clauseAt (xs.map Token.literal ++ ts) c =
      if c = 0 then xs ++ clauseAt ts 0 else clauseAt ts c := by
  induction xs with
  | nil => cases c <;> simp
  | cons x xs ih => cases c <;> simp_all [clauseAt]

theorem clauseAt_clause (xs : List Cnf.Literal) (ts : List Token) (c : ℕ) :
    clauseAt (xs.map Token.literal ++ .term :: ts) c =
      match c with
      | 0 => xs
      | c+1 => clauseAt ts c := by
  rw [clauseAt_literals]
  cases c <;> simp [clauseAt]

end EthernetSoc.WireFormat
