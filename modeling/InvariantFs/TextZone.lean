import InvariantFs.FileRead

namespace InvariantFs.TextZone

open ByteCodec FileRead List

structure RegEnt where
  seq : UInt32
  algo : UInt32
  pba : UInt64
  phys : UInt32
  deriving DecidableEq

def regMagic : Nat := 0x33565a54

def RegEnt.bytes (e : RegEnt) : List Byte :=
  leBytes 4 e.seq.toNat ++ leBytes 4 e.algo.toNat ++ leBytes 8 e.pba.toNat ++
    leBytes 4 e.phys.toNat ++ leBytes 4 0

def regEntAt (bs : List Byte) : RegEnt where
  seq := .ofNat (leNat (bs.take 4))
  algo := .ofNat (leNat ((bs.drop 4).take 4))
  pba := .ofNat (leNat ((bs.drop 8).take 8))
  phys := .ofNat (leNat ((bs.drop 16).take 4))

def regEntsAt : Nat → List Byte → List RegEnt
  | 0, _ => []
  | n + 1, bs => regEntAt bs :: regEntsAt n (bs.drop 24)

variable (ents : List RegEnt)

def regBytes : List Byte :=
  leBytes 4 regMagic ++ leBytes 4 ents.length ++ ents.flatMap RegEnt.bytes

/-- What `tz_reg_load` makes of the content. A content too short for a head is an empty registry. -/
def regParse (buf : List Byte) : Option (List RegEnt) :=
  if buf.length < 8 then some []
  else if leNat (buf.take 4) ≠ regMagic then none
  else
    let n := leNat ((buf.drop 4).take 4)
    if (buf.length - 8) / 24 < n then none else some (regEntsAt n (buf.drop 8))

/-- Whether the lookup of the registry file and the call behind it come to their end. -/
structure RegAnswers where
  lookup : Bool
  done : Bool

/-- `tz_reg_load`; there may be no registry file. -/
def regLoad (owner : Option (List Byte)) (a : RegAnswers) : Option (List RegEnt) :=
  if ¬ a.lookup then none
  else match owner with
    | none => some []
    | some buf => if ¬ a.done then none else regParse buf

/-- `tz_reg_store`: the new content of the registry file. -/
def regStore (a : RegAnswers) : Option (List Byte) :=
  if ¬ a.lookup then none else if ¬ a.done then none else some (regBytes ents)

def textEnts (ents : List Entry) : List Nat :=
  (ents.filter fun e => e.zone = .text).map Entry.pba

def textNames (r : Recipe) : List Nat :=
  textEnts r.ents ++
    match r.tail with
    | .children cs => cs.flatMap fun c => textEnts (c.getD [])
    | _ => []

def rowNames (row : Row) : List Nat :=
  match row.type, row.blob with
  | .link, _ => []
  | _, .ast r => textNames r
  | _, _ => []

end InvariantFs.TextZone
