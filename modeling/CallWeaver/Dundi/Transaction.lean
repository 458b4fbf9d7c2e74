import CallWeaver.Base.Runs

/-! # DUNDi transactions

One transaction between two peers. Commands are numbered by an octet, kept in a list with the
newest first and retransmitted by a timer until a frame acknowledges them. A destroyed transaction
ends the run of its side: what comes later belongs to other transactions.
-/

namespace CallWeaver.Dundi

open Function

/-- The commands that `dundi_send` is called with, the acknowledgement apart. -/
inductive Command where
  | dpdiscover | dpresponse | eidquery | eidresponse | precacherq | precacherp | unknown
      | null | regreq
  | regresponse | cancel | encrypt | encrej
  deriving DecidableEq, Repr

def Command.code : Command → UInt8
  | .dpdiscover => 1
  | .dpresponse => 2 ||| 0x40
  | .eidquery => 3
  | .eidresponse => 4 ||| 0x40
  | .precacherq => 5
  | .precacherp => 6 ||| 0x40
  | .unknown => 8 ||| 0x40
  | .null => 9
  | .regreq => 10
  | .regresponse => 11 ||| 0x40
  | .cancel => 12
  | .encrypt => 13
  | .encrej => 14 ||| 0x40

def ACK : UInt8 := 0x40

def INVALID : UInt8 := 7 ||| 0x40

def FINAL : UInt8 := 0x80

def Command.encrypts : Command → Bool
  | .regreq | .regresponse | .dpdiscover | .dpresponse | .eidquery | .eidresponse | .precacherq
      | .precacherp => true
  | _ => false

/-- `struct dundi_hdr` -/
structure Hdr where
  iseqno : UInt8
  oseqno : UInt8
  cmdresp : UInt8
  cmdflags : UInt8
  deriving DecidableEq, Repr

/-- `struct dundi_packet` -/
structure Packet where
  addr : ℕ
  h : Hdr
  retransid : Option ℕ
  retrans : ℤ
  deriving DecidableEq, Repr

/-- `struct dundi_transaction` -/
structure Trans where
  iseqno : UInt8
  oiseqno : UInt8
  oseqno : UInt8
  aseqno : UInt8
  packets : List Packet
  lasttrans : Option Packet
  autokillid : Option ℕ
  /-- `FLAG_FINAL` -/
  final : Bool
  deriving DecidableEq, Repr

def createTransaction : Trans := ⟨0, 0, 0, 0, [], none, none, false⟩

inductive Job where
  /-- `dundi_rexmit` of a packet -/
  | rexmit (pack : ℕ)
  /-- `do_autokill` -/
  | autokill
  deriving DecidableEq, Repr

/-- The scheduler: its entries by number, and the next number. -/
structure Sched where
  jobs : ℕ → Option Job
  next : ℕ

def Sched.add (sched : Sched) (job : Job) : ℕ × Sched :=
  (sched.next, ⟨update sched.jobs sched.next (some job), sched.next + 1⟩)

def Sched.del (sched : Sched) : Option ℕ → Sched
  | none => sched
  | some id => { sched with jobs := update sched.jobs id none }

/-- One side: its transaction until it is destroyed, its timers, and the address of the next packet.
-/
structure Party where
  trans : Option Trans
  sched : Sched
  next : ℕ

inductive Seal where
  | plain | encrypted | failed
  deriving DecidableEq, Repr

structure Message where
  command : Command
  flags : UInt8
  final : Bool
  sealing : Seal
  deriving DecidableEq, Repr

def DEFAULT_RETRANS : ℤ := 5

def dundiSend (p : Party) (m : Message) : Party × List Hdr :=
  match p.trans with
  | none => (p, [])
  | some t =>
    let sealing := if m.command.encrypts then m.sealing else .plain
    let cmdresp := if m.final then m.command.code ||| FINAL else m.command.code
    let h : Hdr := match sealing with
      | .encrypted => ⟨t.iseqno, t.oseqno, Command.encrypt.code, 0⟩
      | _ => ⟨t.iseqno, t.oseqno, cmdresp, m.flags⟩
    let (retransid, sched) := p.sched.add (.rexmit p.next)
    let t := { t with
      packets := ⟨p.next, h, some retransid, DEFAULT_RETRANS - 1⟩ :: t.packets
      final := t.final || m.final
      oseqno := t.oseqno + 1
      aseqno := t.iseqno }
    (⟨some t, sched, p.next + 1⟩, if sealing = .failed then [] else [h])

def dundiAck (p : Party) (final : Bool) : Party × List Hdr :=
  match p.trans with
  | none => (p, [])
  | some t =>
    ({ p with trans := some { t with final := t.final || final, aseqno := t.iseqno } },
      [⟨t.iseqno, t.oseqno, if final then ACK ||| FINAL else ACK, 0⟩])

/-- The loop of `ack_trans`. -/
def ackLoop (iseqno : UInt8) : List Packet → Option Packet
  | [] => none
  | pack :: rest =>
    if (pack.h.oseqno.toNat + 1) % 255 = iseqno.toNat then some pack else ackLoop iseqno rest

def unlink (addr : ℕ) : List Packet → List Packet
  | [] => []
  | cur :: rest => if cur.addr = addr then rest else cur :: unlink addr rest

def ackTrans (p : Party) (t : Trans) (iseqno : UInt8) : Bool × Party :=
  match ackLoop iseqno t.packets with
  | none => (false, p)
  | some pack =>
    (true, { p with
      trans := some { t with
        packets := unlink pack.addr t.packets
        lasttrans := some { pack with retransid := none }
        autokillid := none }
      sched := (p.sched.del pack.retransid).del t.autokillid })

def destroyPackets (sched : Sched) : List Packet → Sched
  | [] => sched
  | prev :: rest => destroyPackets (sched.del prev.retransid) rest

def destroyTrans (p : Party) : Party :=
  match p.trans with
  | none => p
  | some t =>
    { p with
      trans := none
      sched :=
        (destroyPackets (destroyPackets p.sched t.packets) t.lasttrans.toList).del t.autokillid }

def dundiReject (h : Hdr) : List Hdr :=
  if h.cmdresp = INVALID then [] else [⟨h.oseqno, h.iseqno, INVALID, 0⟩]

/-- The commands for which `handle_frame` creates a transaction. -/
def creates (cmdresp : UInt8) : Bool :=
  (cmdresp &&& 0x7f) ∈ [Command.dpdiscover.code, Command.eidquery.code, Command.precacherq.code,
    Command.regreq.code, Command.null.code, Command.encrypt.code]

/-- What `handle_command_response` does: the commands it sends, and whether an encrypted command was
a final one. -/
structure Answer where
  sends : List Message
  final : Bool
  deriving DecidableEq, Repr

def sendAll (p : Party) : List Message → Party × List Hdr
  | [] => (p, [])
  | m :: ms =>
    let (p, out) := dundiSend p m
    let (p, outs) := sendAll p ms
    (p, out ++ outs)

/-- `handle_frame` acknowledges what has not been acknowledged by an answer. -/
def ackReceived (p : Party) (final : Bool) : Party × List Hdr :=
  match p.trans with
  | none => (p, [])
  | some t => if t.aseqno = t.iseqno then (p, []) else dundiAck p final

/-- The end of `handle_frame` for an expected frame. -/
def closeFrame (p : Party) (final : Bool) : Party × List Hdr :=
  let (p, ack) := ackReceived p final
  let p := { p with trans := p.trans.map fun t => { t with lasttrans := none } }
  (if final then destroyTrans p else p, ack)

/-- `handle_frame` for a frame with the expected number. -/
def acceptFrame (p : Party) (t : Trans) (h : Hdr) (answer : Answer) : Party × List Hdr :=
  let (p, out) := if h.cmdresp = ACK then (p, []) else
    sendAll { p with trans := some { t with oiseqno := t.iseqno, iseqno := t.iseqno + 1 } }
      answer.sends
  let (p, ack) := closeFrame p (h.cmdresp &&& FINAL ≠ 0 ∨ h.cmdresp ≠ ACK ∧ answer.final)
  (p, out ++ ack)

def handleFrame (p : Party) (h : Hdr) (answer : Answer) : Party × List Hdr :=
  match p.trans with
  | none => (p, if creates h.cmdresp then [] else dundiReject h)
  | some t =>
    if h.oseqno = t.iseqno then
      let (found, p) := ackTrans p t h.iseqno
      match p.trans with
      | none => (p, [])
      | some t => if found && t.final then (destroyTrans p, []) else acceptFrame p t h answer
    else if h.oseqno = t.oiseqno then dundiAck p false
    else (p, [])

def dundiRexmit (p : Party) (id pack : ℕ) : Party × List Hdr :=
  match p.trans with
  | none => (p, [])
  | some t =>
    match t.packets.find? (·.addr = pack) with
    | none => (p, [])
    | some k =>
      if k.retrans < 1 then
        let packets :=
          t.packets.map fun q => if q.addr = pack then { q with retransid := none } else q
        (destroyTrans { p with
          trans := some { t with packets := packets }, sched := p.sched.del (some id) }, [])
      else
        let packets :=
          t.packets.map fun q => if q.addr = pack then { q with retrans := q.retrans - 1 } else q
        ({ p with trans := some { t with packets := packets } }, [k.h])

def doAutokill (p : Party) (id : ℕ) : Party :=
  destroyTrans { p with
    trans := p.trans.map fun t => { t with autokillid := none }
    sched := p.sched.del (some id) }

/-- Both sides, and the frames on their way to each of them. -/
structure State where
  party : Bool → Party
  wire : Bool → List Hdr

inductive Act where
  | send (b : Bool) (m : Message)
  /-- `dundi_discover` and its kind start the timer for a first answer -/
  | arm (b : Bool)
  /-- the next frame is received -/
  | deliver (b : Bool) (answer : Answer)
  /-- or lost -/
  | lose (b : Bool)
  /-- an entry of the scheduler is due -/
  | fire (b : Bool) (id : ℕ)
  /-- a later transaction of the other side sends a frame -/
  | stray (b : Bool) (h : Hdr)
  deriving DecidableEq, Repr

def State.act (s : State) (b : Bool) (r : Party × List Hdr) : State :=
  ⟨update s.party b r.1, update s.wire (!b) (s.wire (!b) ++ r.2)⟩

def step (s : State) : Act → Option State
  | .send b m => if (s.party b).trans = none then none else some (s.act b (dundiSend (s.party b) m))
  | .arm b => match (s.party b).trans with
    | none => none
    | some t => match t.autokillid with
      | some _ => none
      | none =>
        let (id, sched) := (s.party b).sched.add .autokill
        some (s.act b
          ({ s.party b with trans := some { t with autokillid := some id }, sched := sched }, []))
  | .deliver b answer => match s.wire b with
    | [] => none
    | h :: rest =>
      some (State.act { s with wire := update s.wire b rest } b (handleFrame (s.party b) h answer))
  | .lose b => match s.wire b with
    | [] => none
    | _ :: rest => some { s with wire := update s.wire b rest }
  | .fire b id => match (s.party b).sched.jobs id with
    | none => none
    | some (.rexmit pack) => some (s.act b (dundiRexmit (s.party b) id pack))
    | some .autokill => some (s.act b (doAutokill (s.party b) id, []))
  | .stray b h =>
    if (s.party (!b)).trans = none then some { s with wire := update s.wire b (s.wire b ++ [h]) }
    else none

def initial : State := ⟨fun _ => ⟨some createTransaction, ⟨fun _ => none, 0⟩, 0⟩, fun _ => []⟩

end CallWeaver.Dundi
