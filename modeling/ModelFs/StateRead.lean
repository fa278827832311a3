import ModelFs.Handover
import ModelFs.LeaseDoc
import ModelFs.Lib.JsonText

/-!
# Reading the state back

std.json reads the state at a type. The image that reads it may be of another build than the one
that wrote it, so the reader passes over members it does not know and puts defaults where a member
may be missing. A byte slice that is no UTF-8 is written as an array of numbers, and read back from
one; a path of the file system can be either. A number that is written with a fraction goes by way
of a float, `ofFloat`.

* `reads_bytes`, `decodeBytes_bytesJson` — **any bytes** come back, by one way or the other.
* `parseDoc_of_carries`, `parseDoc_stringify` — **a state is read from its own text**, and from
  what another build made of it.
* `readStateFd_iff` — what is encoded is read back exactly if it fits.
-/

namespace ModelFs

namespace Handover

open Inodes (NodeSnap OpenSnap pathMax)
open LeaseDoc (decodeInt decodeBytes fieldOf required decodeInt_decimal sliceToInt
  sliceToInt_decimalInt decimalInt)
open Proto

/-! ## Readers -/

section Readers

variable (ofFloat : List UInt8 → Option Int)

/-- An unsigned number up to `hi`. -/
def decodeNat (hi : Int) (v : Json) : Option Nat := (decodeInt ofFloat 0 hi v).map Int.toNat

def decodeBool : Json → Option Bool
  | .bool b => some b
  | _ => none

def Level.all : List Level := [.err, .warn, .info, .debug]

/-- `sliceToEnum`: a tag by its name, or by its number if that is written without a fraction. -/
def decodeLevel : Json → Option Level
  | .string s | .number s =>
    match Level.all.find? fun l => l.tagName = s with
    | some l => some l
    | none =>
      if s = ascii "-0" ∨ s.any (fun b => b = 46 || b = 101 || b = 69) then none
      else (sliceToInt (fun _ => none) 0 3 s).bind fun n => Level.all[n.toNat]?
  | _ => none

def decodeList {α : Type} (item : Json → Option α) : Json → Option (List α)
  | .array items => items.mapM item
  | _ => none

/-- A field that must be there. -/
def field {α : Type} (name : List UInt8) (item : Json → Option α)
    (members : List (List UInt8 × Json)) : Option α := (required name members).bind item

/-- A field with a default. -/
def fieldOr {α : Type} (name : List UInt8) (default : α) (item : Json → Option α)
    (members : List (List UInt8 × Json)) : Option α :=
  match fieldOf name members with
  | none => none
  | some none => some default
  | some (some v) => item v

def maxU16 : Int := 65535

def maxU32 : Int := 4294967295

def minI32 : Int := -2147483648

def maxI32 : Int := 2147483647

def decodeAddr : Json → Option LeaseAddr
  | .object members => do
    let ip ← field (ascii "ip") (decodeBytes ofFloat) members
    let port ← field (ascii "port") (decodeNat ofFloat maxU16) members
    let mbps ← fieldOr (ascii "mbps") 0 (decodeNat ofFloat maxU32) members
    some ⟨ip, port, mbps⟩
  | _ => none

def decodeNode : Json → Option NodeSnap
  | .object members => do
    let ino ← field (ascii "ino") (decodeNat ofFloat maxU64) members
    let path ← field (ascii "path") (decodeBytes ofFloat) members
    let nlookup ← field (ascii "nlookup") (decodeNat ofFloat maxU64) members
    some ⟨ino, path, nlookup⟩
  | _ => none

def decodeOpen : Json → Option OpenSnap
  | .object members => do
    let fh ← field (ascii "fh") (decodeNat ofFloat maxU64) members
    let path ← field (ascii "path") (decodeBytes ofFloat) members
    some ⟨fh, path⟩
  | _ => none

/-- `std.json.parseFromSlice` at `JsonDoc`, unknown members passed over. -/
def decodeDoc : Json → Option JsonDoc
  | .object members => do
    let origin ← field (ascii "origin") (decodeBytes ofFloat) members
    let cache ← field (ascii "cache") (decodeBytes ofFloat) members
    let id ← field (ascii "id") (decodeBytes ofFloat) members
    let mount ← field (ascii "mount") (decodeBytes ofFloat) members
    let piece ← field (ascii "piece") (decodeNat ofFloat maxU32) members
    let listen ← field (ascii "listen") (decodeNat ofFloat maxU16) members
    let brun ← field (ascii "brun") (decodeNat ofFloat maxU32) members
    let bcull ← field (ascii "bcull") (decodeNat ofFloat maxU32) members
    let bstop ← field (ascii "bstop") (decodeNat ofFloat maxU32) members
    let directIo ← field (ascii "direct_io") decodeBool members
    let allowOther ← field (ascii "allow_other") decodeBool members
    let fuseFd ← field (ascii "fuse_fd") (decodeInt ofFloat minI32 maxI32) members
    let listenFds ← field (ascii "listen_fds") (decodeList (decodeInt ofFloat minI32 maxI32))
      members
    let advertise ← field (ascii "advertise") (decodeList (decodeAddr ofFloat)) members
    let seeds ← field (ascii "seeds") (decodeList (decodeAddr ofFloat)) members
    let pskLen ← field (ascii "psk_len") (decodeNat ofFloat maxU64) members
    let logLevel ← fieldOr (ascii "log_level") .info decodeLevel members
    let init ← fieldOr (ascii "init") [] (decodeBytes ofFloat) members
    let nodes ← fieldOr (ascii "nodes") [] (decodeList (decodeNode ofFloat)) members
    let opens ← fieldOr (ascii "opens") [] (decodeList (decodeOpen ofFloat)) members
    let nextIno ← fieldOr (ascii "next_ino") 2 (decodeNat ofFloat maxU64) members
    let nextFh ← fieldOr (ascii "next_fh") 1 (decodeNat ofFloat maxU64) members
    some ⟨origin, cache, id, mount, piece, listen, brun, bcull, bstop, directIo, allowOther,
      fuseFd, listenFds, advertise, seeds, pskLen, logLevel, init, nodes, opens, nextIno, nextFh⟩
  | _ => none

def parseDoc (json : List UInt8) : Option JsonDoc := (parseJson json).bind (decodeDoc ofFloat)

end Readers

/-! ## The values that are written -/

/-- What is read of a byte slice's text. -/
def bytesJson (s : List UInt8) : Json :=
  if utf8ValidateSlice s then .string s
  else .array (s.map fun b => .number (decimal b.toNat))

def addrJson (a : LeaseAddr) : Json :=
  .object [(ascii "ip", bytesJson a.ip), (ascii "port", .number (decimal a.port)),
    (ascii "mbps", .number (decimal a.mbps))]

def nodeJson (n : NodeSnap) : Json :=
  .object [(ascii "ino", .number (decimal n.ino)), (ascii "path", bytesJson n.path),
    (ascii "nlookup", .number (decimal n.nlookup))]

def openJson (o : OpenSnap) : Json :=
  .object [(ascii "fh", .number (decimal o.fh)), (ascii "path", bytesJson o.path)]

/-- The members that must be there, each with its text. -/
def requiredMembers (d : JsonDoc) : List Member :=
  [(ascii "origin", bytesJson d.origin, string d.origin),
    (ascii "cache", bytesJson d.cache, string d.cache),
    (ascii "id", bytesJson d.id, string d.id),
    (ascii "mount", bytesJson d.mount, string d.mount),
    (ascii "piece", .number (decimal d.piece), decimal d.piece),
    (ascii "listen", .number (decimal d.listen), decimal d.listen),
    (ascii "brun", .number (decimal d.brun), decimal d.brun),
    (ascii "bcull", .number (decimal d.bcull), decimal d.bcull),
    (ascii "bstop", .number (decimal d.bstop), decimal d.bstop),
    (ascii "direct_io", .bool d.directIo, jsonBool d.directIo),
    (ascii "allow_other", .bool d.allowOther, jsonBool d.allowOther),
    (ascii "fuse_fd", .number (integer d.fuseFd), integer d.fuseFd),
    (ascii "listen_fds", .array (d.listenFds.map fun i => .number (integer i)),
      jsonArray (d.listenFds.map integer)),
    (ascii "advertise", .array (d.advertise.map addrJson), jsonArray (d.advertise.map addrText)),
    (ascii "seeds", .array (d.seeds.map addrJson), jsonArray (d.seeds.map addrText)),
    (ascii "psk_len", .number (decimal d.pskLen), decimal d.pskLen)]

/-- The members that have defaults. -/
def optionalMembers (logLevel : Level) (init : List UInt8) (nodes : List NodeSnap)
    (opens : List OpenSnap) (nextIno nextFh : Nat) : List Member :=
  [(ascii "log_level", .string logLevel.tagName, jsonString logLevel.tagName),
    (ascii "init", bytesJson init, string init),
    (ascii "nodes", .array (nodes.map nodeJson), jsonArray (nodes.map nodeText)),
    (ascii "opens", .array (opens.map openJson), jsonArray (opens.map openText)),
    (ascii "next_ino", .number (decimal nextIno), decimal nextIno),
    (ascii "next_fh", .number (decimal nextFh), decimal nextFh)]

def docMembers (d : JsonDoc) : List Member :=
  requiredMembers d ++ optionalMembers d.logLevel d.init d.nodes d.opens d.nextIno d.nextFh

/-- The ranges of the types of the source. -/
structure AddrFits (a : LeaseAddr) : Prop where
  port : (a.port : Int) ≤ maxU16
  mbps : (a.mbps : Int) ≤ maxU32

structure NodeFits (n : NodeSnap) : Prop where
  ino : n.ino ≤ maxU64
  nlookup : n.nlookup ≤ maxU64

structure DocFits (d : JsonDoc) : Prop where
  piece : (d.piece : Int) ≤ maxU32
  listen : (d.listen : Int) ≤ maxU16
  brun : (d.brun : Int) ≤ maxU32
  bcull : (d.bcull : Int) ≤ maxU32
  bstop : (d.bstop : Int) ≤ maxU32
  fuseFd : minI32 ≤ d.fuseFd ∧ d.fuseFd ≤ maxI32
  listenFds : ∀ i ∈ d.listenFds, minI32 ≤ i ∧ i ≤ maxI32
  advertise : ∀ a ∈ d.advertise, AddrFits a
  seeds : ∀ a ∈ d.seeds, AddrFits a
  pskLen : d.pskLen ≤ maxU64
  nodes : ∀ n ∈ d.nodes, NodeFits n
  opens : ∀ o ∈ d.opens, o.fh ≤ maxU64
  nextIno : d.nextIno ≤ maxU64
  nextFh : d.nextFh ≤ maxU64

/-! ## Texts -/

theorem reads_decimal (n : Nat) : Reads (.number (decimal n)) (decimal n) :=
  LeaseDoc.reads_decimal n

theorem reads_integer (i : Int) : Reads (.number (integer i)) (integer i) :=
  LeaseDoc.reads_decimalInt i

/-- An array of texts of one kind. -/
theorem reads_list {α : Type} {value : α → Json} {text : α → List UInt8}
    (h : ∀ a, Reads (value a) (text a)) (l : List α) :
    Reads (.array (l.map value)) (jsonArray (l.map text)) := by
  apply reads_array
  rw [List.forall₂_map_left_iff, List.forall₂_map_right_iff, List.forall₂_same]
  exact fun a _ => h a

/-- **Any bytes** have a text that is read. -/
theorem reads_bytes (s : List UInt8) : Reads (bytesJson s) (string s) := by
  unfold bytesJson string jsonBytes
  split_ifs with hutf8
  · exact reads_jsonString hutf8
  · exact reads_list (fun b : UInt8 => reads_decimal b.toNat) s

theorem reads_bool (b : Bool) : Reads (.bool b) (jsonBool b) := by
  intro fuel rest hfuel _
  obtain ⟨fuel, rfl⟩ : ∃ k, fuel = k + 1 := by
    have hlen := length_jsonBool b
    unfold boolSize at hlen
    exact ⟨fuel - 1, by split at hlen <;> omega⟩
  cases b <;> rfl

/-- Names and tags are their own texts. -/
theorem verbatim_ascii {s : List UInt8}
    (h : s.all fun b => 32 ≤ b.toNat && b.toNat ≤ 0x7f && b ≠ 34 && b ≠ 92) : Verbatim s := by
  have hbyte : ∀ b ∈ s, 32 ≤ b.toNat ∧ b.toNat ≤ 0x7f ∧ b ≠ 34 ∧ b ≠ 92 := by
    intro b hb
    have hall := List.all_eq_true.mp h b hb
    simp only [Bool.and_eq_true, decide_eq_true_eq] at hall
    exact ⟨hall.1.1.1, hall.1.1.2, hall.1.2, hall.2⟩
  refine ⟨utf8ValidateSlice_ascii fun b hb => (hbyte b hb).2.1, fun b hb => ?_⟩
  obtain ⟨hlow, -, hquote, hback⟩ := hbyte b hb
  exact ⟨hlow, hquote, hback⟩

theorem reads_addr (a : LeaseAddr) : Reads (addrJson a) (addrText a) := by
  apply @reads_object [(ascii "ip", bytesJson a.ip, string a.ip),
    (ascii "port", .number (decimal a.port), decimal a.port),
    (ascii "mbps", .number (decimal a.mbps), decimal a.mbps)]
  intro m hm
  simp only [List.mem_cons, List.not_mem_nil, or_false] at hm
  rcases hm with rfl | rfl | rfl
  · exact ⟨verbatim_ascii rfl, reads_bytes a.ip⟩
  · exact ⟨verbatim_ascii rfl, reads_decimal a.port⟩
  · exact ⟨verbatim_ascii rfl, reads_decimal a.mbps⟩

theorem reads_node (n : NodeSnap) : Reads (nodeJson n) (nodeText n) := by
  apply @reads_object [(ascii "ino", .number (decimal n.ino), decimal n.ino),
    (ascii "path", bytesJson n.path, string n.path),
    (ascii "nlookup", .number (decimal n.nlookup), decimal n.nlookup)]
  intro m hm
  simp only [List.mem_cons, List.not_mem_nil, or_false] at hm
  rcases hm with rfl | rfl | rfl
  · exact ⟨verbatim_ascii rfl, reads_decimal n.ino⟩
  · exact ⟨verbatim_ascii rfl, reads_bytes n.path⟩
  · exact ⟨verbatim_ascii rfl, reads_decimal n.nlookup⟩

theorem reads_open (o : OpenSnap) : Reads (openJson o) (openText o) := by
  apply @reads_object [(ascii "fh", .number (decimal o.fh), decimal o.fh),
    (ascii "path", bytesJson o.path, string o.path)]
  intro m hm
  simp only [List.mem_cons, List.not_mem_nil, or_false] at hm
  rcases hm with rfl | rfl
  · exact ⟨verbatim_ascii rfl, reads_decimal o.fh⟩
  · exact ⟨verbatim_ascii rfl, reads_bytes o.path⟩

theorem reads_level (l : Level) : Reads (.string l.tagName) (jsonString l.tagName) := by
  apply reads_jsonString
  cases l <;> decide

/-- The names of the members. -/
def docNames : List (List UInt8) := (docMembers (stateDoc (served 0))).map fun m => m.1

theorem names_docMembers (d : JsonDoc) : (docMembers d).map (fun m => m.1) = docNames := rfl

theorem verbatim_docNames : ∀ s ∈ docNames, Verbatim s := by
  have hall : docNames.all fun s =>
      s.all fun b => 32 ≤ b.toNat && b.toNat ≤ 0x7f && b ≠ 34 && b ≠ 92 := by decide
  intro s hs
  exact verbatim_ascii (List.all_eq_true.mp hall s hs)

theorem nodup_docNames : docNames.Nodup := by decide

theorem ok_docMembers (d : JsonDoc) : ∀ m ∈ docMembers d, Member.Ok m := by
  intro m hm
  refine ⟨verbatim_docNames m.1 (names_docMembers d ▸ List.mem_map_of_mem hm), ?_⟩
  unfold docMembers requiredMembers optionalMembers at hm
  simp only [List.cons_append, List.nil_append, List.mem_cons, List.not_mem_nil, or_false] at hm
  rcases hm with rfl | rfl | rfl | rfl | rfl | rfl | rfl | rfl | rfl | rfl | rfl | rfl | rfl |
    rfl | rfl | rfl | rfl | rfl | rfl | rfl | rfl | rfl
  · exact reads_bytes d.origin
  · exact reads_bytes d.cache
  · exact reads_bytes d.id
  · exact reads_bytes d.mount
  · exact reads_decimal d.piece
  · exact reads_decimal d.listen
  · exact reads_decimal d.brun
  · exact reads_decimal d.bcull
  · exact reads_decimal d.bstop
  · exact reads_bool d.directIo
  · exact reads_bool d.allowOther
  · exact reads_integer d.fuseFd
  · exact reads_list reads_integer d.listenFds
  · exact reads_list reads_addr d.advertise
  · exact reads_list reads_addr d.seeds
  · exact reads_decimal d.pskLen
  · exact reads_level d.logLevel
  · exact reads_bytes d.init
  · exact reads_list reads_node d.nodes
  · exact reads_list reads_open d.opens
  · exact reads_decimal d.nextIno
  · exact reads_decimal d.nextFh

/-! ## Reading them -/

section Decoders

variable (ofFloat : List UInt8 → Option Int)

theorem decodeNat_decimal {hi : Int} {n : Nat} (hn : (n : Int) ≤ hi) (hmax : n ≤ maxU64) :
    decodeNat ofFloat hi (.number (decimal n)) = some n := by
  unfold decodeNat
  rw [decodeInt_decimal ofFloat hn hmax]
  rfl

theorem decodeNat_u64 {n : Nat} (hn : n ≤ maxU64) :
    decodeNat ofFloat maxU64 (.number (decimal n)) = some n :=
  decodeNat_decimal ofFloat (by exact_mod_cast hn) hn

theorem decodeNat_u32 {n : Nat} (hn : (n : Int) ≤ maxU32) :
    decodeNat ofFloat maxU32 (.number (decimal n)) = some n := by
  have hmax : maxU64 = 2 ^ 64 - 1 := rfl
  unfold maxU32 at hn
  exact decodeNat_decimal ofFloat hn (by omega)

theorem decodeNat_u16 {n : Nat} (hn : (n : Int) ≤ maxU16) :
    decodeNat ofFloat maxU16 (.number (decimal n)) = some n := by
  have hmax : maxU64 = 2 ^ 64 - 1 := rfl
  unfold maxU16 at hn
  exact decodeNat_decimal ofFloat hn (by omega)

theorem decodeInt_i32 {i : Int} (h : minI32 ≤ i ∧ i ≤ maxI32) :
    decodeInt ofFloat minI32 maxI32 (.number (integer i)) = some i := by
  have hmax : maxU64 = 2 ^ 64 - 1 := rfl
  refine sliceToInt_decimalInt ofFloat h.1 h.2 ?_
  unfold minI32 maxI32 at h
  omega

theorem decodeList_map {α : Type} {item : Json → Option α} {value : α → Json} {l : List α}
    (h : ∀ a ∈ l, item (value a) = some a) : decodeList item (.array (l.map value)) = some l := by
  unfold decodeList
  dsimp only
  induction l with
  | nil => rfl
  | cons a l ih =>
    rw [List.map_cons, List.mapM_cons, h a List.mem_cons_self,
      ih fun b hb => h b (List.mem_cons_of_mem a hb)]
    rfl

/-- **Any bytes** come back. -/
theorem decodeBytes_bytesJson (s : List UInt8) : decodeBytes ofFloat (bytesJson s) = some s := by
  unfold bytesJson
  split_ifs with hutf8
  · rfl
  · have hbyte : ∀ b : UInt8,
        ((decodeInt ofFloat 0 255 (.number (decimal b.toNat))).map fun n => UInt8.ofNat n.toNat) =
          some b := by
      intro b
      have hmax : maxU64 = 2 ^ 64 - 1 := rfl
      have hb := b.toNat_lt
      rw [decodeInt_decimal ofFloat (by omega) (by omega)]
      simp
    exact @decodeList_map UInt8
      (fun v => (decodeInt ofFloat 0 255 v).map fun n => UInt8.ofNat n.toNat) _ s
      fun b _ => hbyte b

theorem decodeLevel_tagName (l : Level) : decodeLevel (.string l.tagName) = some l := by
  cases l <;> rfl

theorem decodeBool_bool (b : Bool) : decodeBool (.bool b) = some b := rfl

/-- A name that is there once. -/
theorem fieldOf_of_mem {members : List (List UInt8 × Json)}
    (hnodup : (members.map Prod.fst).Nodup) {m : List UInt8 × Json} (hm : m ∈ members) :
    fieldOf m.1 members = some (some m.2) := by
  have hfilter : members.filter (fun k => k.1 = m.1) = [m] := by
    induction members with
    | nil => cases hm
    | cons k members ih =>
      rw [List.map_cons, List.nodup_cons] at hnodup
      obtain ⟨hfresh, hnodup⟩ := hnodup
      rcases List.mem_cons.mp hm with rfl | hm
      · have hnone : members.filter (fun k => k.1 = m.1) = [] := by
          rw [List.filter_eq_nil_iff]
          intro k hk heq
          exact hfresh (of_decide_eq_true heq ▸ List.mem_map_of_mem hk)
        rw [List.filter_cons_of_pos (by simp), hnone]
      · have hne : k.1 ≠ m.1 := fun heq => hfresh (heq ▸ List.mem_map_of_mem hm)
        rw [List.filter_cons_of_neg (by simp [hne]), ih hnodup hm]
  unfold fieldOf
  rw [hfilter]

section Fields

variable {α : Type} {name : List UInt8} {item : Json → Option α} {v : Json} {x : α}
  {members : List (List UInt8 × Json)}

theorem field_eq (h : fieldOf name members = some (some v)) (hitem : item v = some x) :
    field name item members = some x := by
  unfold field required
  rw [h]
  exact hitem

theorem fieldOr_eq {dflt : α} {v₀ : Json} (hdflt : item v₀ = some dflt)
    (h : fieldOf name members = some (some v) ∨ (fieldOf name members = some none ∧ v = v₀))
    (hitem : item v = some x) : fieldOr name dflt item members = some x := by
  unfold fieldOr
  rcases h with h | ⟨h, rfl⟩
  · rw [h]
    exact hitem
  · rw [h, ← hdflt]
    exact hitem

end Fields

/-- The members of a document that some build wrote for the state `d`: the state's members once
each, or not at all where the value is the default. -/
structure Carries (d : JsonDoc) (members : List (List UInt8 × Json)) : Prop where
  required : ∀ m ∈ requiredMembers d, fieldOf m.1 members = some (some m.2.1)
  optional : ∀ p ∈ (optionalMembers d.logLevel d.init d.nodes d.opens d.nextIno d.nextFh).zip
      (optionalMembers .info [] [] [] 2 1),
    fieldOf p.1.1 members = some (some p.1.2.1) ∨
      (fieldOf p.1.1 members = some none ∧ p.1.2.1 = p.2.2.1)

theorem decodeAddr_addrJson {a : LeaseAddr} (h : AddrFits a) :
    decodeAddr ofFloat (addrJson a) = some a := by
  have hnames : [ascii "ip", ascii "port", ascii "mbps"].Nodup := by decide
  have hfield := fun m hm => @fieldOf_of_mem [(ascii "ip", bytesJson a.ip),
    (ascii "port", .number (decimal a.port)), (ascii "mbps", .number (decimal a.mbps))] hnames m hm
  have hip := field_eq (hfield (ascii "ip", bytesJson a.ip) (by simp))
    (decodeBytes_bytesJson ofFloat a.ip)
  have hport := field_eq (hfield (ascii "port", .number (decimal a.port)) (by simp))
    (decodeNat_u16 ofFloat h.port)
  have hmbps := fieldOr_eq (decodeNat_u32 ofFloat (n := 0) (by decide))
    (Or.inl (hfield (ascii "mbps", .number (decimal a.mbps)) (by simp)))
    (decodeNat_u32 ofFloat h.mbps)
  unfold decodeAddr addrJson
  dsimp only
  rw [hip, hport, hmbps]
  rfl

theorem decodeNode_nodeJson {n : NodeSnap} (h : NodeFits n) :
    decodeNode ofFloat (nodeJson n) = some n := by
  have hnames : [ascii "ino", ascii "path", ascii "nlookup"].Nodup := by decide
  have hfield := fun m hm => @fieldOf_of_mem [(ascii "ino", .number (decimal n.ino)),
    (ascii "path", bytesJson n.path), (ascii "nlookup", .number (decimal n.nlookup))] hnames m hm
  have hino := field_eq (hfield (ascii "ino", .number (decimal n.ino)) (by simp))
    (decodeNat_u64 ofFloat h.ino)
  have hpath := field_eq (hfield (ascii "path", bytesJson n.path) (by simp))
    (decodeBytes_bytesJson ofFloat n.path)
  have hnlookup := field_eq (hfield (ascii "nlookup", .number (decimal n.nlookup)) (by simp))
    (decodeNat_u64 ofFloat h.nlookup)
  unfold decodeNode nodeJson
  dsimp only
  rw [hino, hpath, hnlookup]
  rfl

theorem decodeOpen_openJson {o : OpenSnap} (h : o.fh ≤ maxU64) :
    decodeOpen ofFloat (openJson o) = some o := by
  have hnames : [ascii "fh", ascii "path"].Nodup := by decide
  have hfield := fun m hm => @fieldOf_of_mem [(ascii "fh", .number (decimal o.fh)),
    (ascii "path", bytesJson o.path)] hnames m hm
  have hfh := field_eq (hfield (ascii "fh", .number (decimal o.fh)) (by simp))
    (decodeNat_u64 ofFloat h)
  have hpath := field_eq (hfield (ascii "path", bytesJson o.path) (by simp))
    (decodeBytes_bytesJson ofFloat o.path)
  unfold decodeOpen openJson
  dsimp only
  rw [hfh, hpath]
  rfl

/-- **A state is read from its members**, in any order and among others. -/
theorem decodeDoc_of_carries {d : JsonDoc} (hfits : DocFits d)
    {members : List (List UInt8 × Json)} (h : Carries d members) :
    decodeDoc ofFloat (.object members) = some d := by
  obtain ⟨hreq, hopt⟩ := h
  unfold requiredMembers at hreq
  unfold optionalMembers at hopt
  simp only [List.forall_mem_cons] at hreq
  simp only [List.zip_cons_cons, List.zip_nil_right, List.forall_mem_cons] at hopt
  obtain ⟨horigin, hcache, hid, hmount, hpiece, hlisten, hbrun, hbcull, hbstop, hdirect, hallow,
    hfuse, hlistenFds, hadvertise, hseeds, hpskLen, -⟩ := hreq
  obtain ⟨hlevel, hinit, hnodes, hopens, hnextIno, hnextFh, -⟩ := hopt
  have hbytes := decodeBytes_bytesJson ofFloat
  have haddrs : ∀ l : List LeaseAddr, (∀ a ∈ l, AddrFits a) →
      decodeList (decodeAddr ofFloat) (.array (l.map addrJson)) = some l :=
    fun l hl => decodeList_map fun a ha => decodeAddr_addrJson ofFloat (hl a ha)
  have hfds : decodeList (decodeInt ofFloat minI32 maxI32)
      (.array (d.listenFds.map fun i => .number (integer i))) = some d.listenFds :=
    decodeList_map fun i hi => decodeInt_i32 ofFloat (hfits.listenFds i hi)
  have hnodesRead : decodeList (decodeNode ofFloat) (.array (d.nodes.map nodeJson)) =
      some d.nodes :=
    decodeList_map fun n hn => decodeNode_nodeJson ofFloat (hfits.nodes n hn)
  have hopensRead : decodeList (decodeOpen ofFloat) (.array (d.opens.map openJson)) =
      some d.opens :=
    decodeList_map fun o ho => decodeOpen_openJson ofFloat (hfits.opens o ho)
  have hnoNodes : decodeList (decodeNode ofFloat) (.array (([] : List NodeSnap).map nodeJson)) =
      some [] := rfl
  have hnoOpens : decodeList (decodeOpen ofFloat) (.array (([] : List OpenSnap).map openJson)) =
      some [] := rfl
  unfold decodeDoc
  dsimp only
  rw [field_eq horigin (hbytes _), field_eq hcache (hbytes _), field_eq hid (hbytes _),
    field_eq hmount (hbytes _), field_eq hpiece (decodeNat_u32 ofFloat hfits.piece),
    field_eq hlisten (decodeNat_u16 ofFloat hfits.listen),
    field_eq hbrun (decodeNat_u32 ofFloat hfits.brun),
    field_eq hbcull (decodeNat_u32 ofFloat hfits.bcull),
    field_eq hbstop (decodeNat_u32 ofFloat hfits.bstop),
    field_eq hdirect (decodeBool_bool _), field_eq hallow (decodeBool_bool _),
    field_eq hfuse (decodeInt_i32 ofFloat hfits.fuseFd), field_eq hlistenFds hfds,
    field_eq hadvertise (haddrs _ hfits.advertise), field_eq hseeds (haddrs _ hfits.seeds),
    field_eq hpskLen (decodeNat_u64 ofFloat hfits.pskLen),
    fieldOr_eq (decodeLevel_tagName .info) hlevel (decodeLevel_tagName _),
    fieldOr_eq (hbytes []) hinit (hbytes _),
    fieldOr_eq hnoNodes hnodes hnodesRead, fieldOr_eq hnoOpens hopens hopensRead,
    fieldOr_eq (decodeNat_u64 ofFloat (n := 2) (by decide)) hnextIno
      (decodeNat_u64 ofFloat hfits.nextIno),
    fieldOr_eq (decodeNat_u64 ofFloat (n := 1) (by decide)) hnextFh
      (decodeNat_u64 ofFloat hfits.nextFh)]
  rfl

/-! ## The round trip -/

theorem carries_docMembers (d : JsonDoc) :
    Carries d ((docMembers d).map fun m => (m.1, m.2.1)) := by
  have hnodup : (((docMembers d).map fun m => (m.1, m.2.1)).map Prod.fst).Nodup := nodup_docNames
  have hfield : ∀ m ∈ docMembers d,
      fieldOf m.1 ((docMembers d).map fun m => (m.1, m.2.1)) = some (some m.2.1) := by
    intro m hm
    exact fieldOf_of_mem hnodup (List.mem_map_of_mem (f := fun m : Member => (m.1, m.2.1)) hm)
  refine ⟨fun m hm => hfield m (List.mem_append_left _ hm), fun p hp => Or.inl ?_⟩
  exact hfield p.1 (List.mem_append_right _ (List.of_mem_zip hp).1)

/-- What a text of members is read as. -/
theorem parseDoc_members {ms : List Member} (hok : ∀ m ∈ ms, Member.Ok m) :
    parseDoc ofFloat (jsonObject (ms.map fun m => (m.1, m.2.2))) =
      decodeDoc ofFloat (.object (ms.map fun m => (m.1, m.2.1))) := by
  unfold parseDoc
  rw [parseJson_of_reads (reads_object hok)]
  rfl

/-- **A text of another build** is read as the state it carries. -/
theorem parseDoc_of_carries {d : JsonDoc} (hfits : DocFits d) {ms : List Member}
    (hok : ∀ m ∈ ms, Member.Ok m) (h : Carries d (ms.map fun m => (m.1, m.2.1))) :
    parseDoc ofFloat (jsonObject (ms.map fun m => (m.1, m.2.2))) = some d := by
  rw [parseDoc_members ofFloat hok]
  exact decodeDoc_of_carries ofFloat hfits h

/-- **A state is read from its own text.** -/
theorem parseDoc_stringify {d : JsonDoc} (hfits : DocFits d) :
    parseDoc ofFloat (stringify d) = some d :=
  (parseDoc_members ofFloat (ok_docMembers d)).trans
    (decodeDoc_of_carries ofFloat hfits (carries_docMembers d))

/-- The ranges of a state's types. -/
structure KnobsFit (k : Knobs) : Prop where
  piece : (k.piece : Int) ≤ maxU32
  listen : (k.listen : Int) ≤ maxU16
  fuseFd : minI32 ≤ k.fuseFd ∧ k.fuseFd ≤ maxI32
  listenFds : ∀ i ∈ k.listenFds, minI32 ≤ i ∧ i ≤ maxI32
  advertise : ∀ a ∈ k.advertise, AddrFits a
  seeds : ∀ a ∈ k.seeds, AddrFits a
  nodes : ∀ n ∈ k.nodes, NodeFits n
  opens : ∀ o ∈ k.opens, o.fh ≤ maxU64
  nextIno : k.nextIno ≤ maxU64
  nextFh : k.nextFh ≤ maxU64

theorem docFits_stateDoc {k : Knobs} (h : KnobsFit k) (hwater : k.water.ordered = true)
    (hpsk : k.psk.length ≤ maxPskBytes) : DocFits (stateDoc k) := by
  unfold Water.ordered at hwater
  simp only [Bool.and_eq_true, decide_eq_true_eq] at hwater
  obtain ⟨⟨hbrun, hbcull⟩, hbstop⟩ := hwater
  have hmax : maxPskBytes ≤ maxU64 := by decide
  have hnat : ∀ n : Nat, n ≤ 100 → (n : Int) ≤ maxU32 := by
    intro n hn
    unfold maxU32
    omega
  exact {
    piece := h.piece
    listen := h.listen
    brun := hnat _ hbrun
    bcull := hnat _ (Nat.le_trans (Nat.le_of_lt hbcull) hbrun)
    bstop := hnat _ (Nat.le_trans (Nat.le_of_lt (Nat.lt_trans hbstop hbcull)) hbrun)
    fuseFd := h.fuseFd
    listenFds := h.listenFds
    advertise := h.advertise
    seeds := h.seeds
    pskLen := Nat.le_trans hpsk hmax
    nodes := h.nodes
    opens := h.opens
    nextIno := h.nextIno
    nextFh := h.nextFh }

/-- **What is encoded is read back exactly if it fits.** -/
theorem readStateFd_iff {k : Knobs} {blob : List UInt8} (hfits : KnobsFit k)
    (hpsk : k.psk.length ≤ maxPskBytes) (h : encode k = .ok blob) :
    readStateFd (parseDoc ofFloat) blob = .ok k ↔ stateSize k ≤ maxStateBytes := by
  have hwater := (encode_eq_ok.mp h).1
  have hjson := parseDoc_stringify ofFloat (docFits_stateDoc hfits hwater hpsk)
  rcases Nat.lt_or_ge maxStateBytes (stateSize k) with hlarge | hsize
  · rw [readStateFd_large h hlarge]
    simp [Nat.not_le.mpr hlarge]
  · rw [readStateFd_fits h hsize, decode_encode (parseDoc ofFloat) hjson hpsk h]
    simp [hsize]

end Decoders

/-! ## Two states -/

theorem knobsFit_served (n : Nat) (hn : n + 2 ≤ maxU64) : KnobsFit (served n) := by
  have hport : ((18080 : Nat) : Int) ≤ maxU16 := by decide
  have hone : 1 ≤ maxU64 := by decide
  exact {
    piece := show ((16777216 : Nat) : Int) ≤ maxU32 by decide
    listen := hport
    fuseFd := show minI32 ≤ 7 ∧ 7 ≤ maxI32 by decide
    listenFds := show ∀ i ∈ [4, 5], minI32 ≤ i ∧ i ≤ maxI32 by decide
    advertise := by
      intro a ha
      rw [List.mem_singleton.mp ha]
      exact ⟨hport, by decide⟩
    seeds := by
      intro a ha
      cases ha
    nodes := by
      intro m hm
      obtain ⟨i, hi, rfl⟩ := List.mem_map.mp hm
      have hlt := List.mem_range.mp hi
      exact ⟨by dsimp only; omega, hone⟩
    opens := by
      intro o ho
      cases ho
    nextIno := hn
    nextFh := hone }

theorem readStateFd_served : ∃ blob, encode (served 2) = .ok blob ∧
    (readStateFd (parseDoc fun _ => none) blob = .ok (served 2) ↔
      stateSize (served 2) ≤ maxStateBytes) := by
  have hblob := @encode_eq_ok (served 2) _ |>.mpr ⟨rfl, by decide, rfl, by decide, rfl⟩
  exact ⟨_, hblob, readStateFd_iff _ (knobsFit_served 2 (by decide)) (by decide) hblob⟩

/-- What a build that knew no nodes wrote of a mount with none, and a member of its own. -/
def otherBuild : List Member :=
  (ascii "splice", .bool true, jsonBool true) ::
    (requiredMembers (stateDoc { served 0 with init := [] })).reverse

theorem ok_otherBuild : ∀ m ∈ otherBuild, Member.Ok m := by
  intro m hm
  rcases List.mem_cons.mp hm with rfl | hm
  · exact ⟨verbatim_ascii rfl, reads_bool true⟩
  · exact ok_docMembers _ m (List.mem_append_left _ (List.mem_reverse.mp hm))

theorem carries_otherBuild : Carries (stateDoc { served 0 with init := [] })
    (otherBuild.map fun m => (m.1, m.2.1)) where
  required := by
    intro m hm
    have hnodup : ((otherBuild.map fun m => (m.1, m.2.1)).map Prod.fst).Nodup := by decide
    exact fieldOf_of_mem hnodup (List.mem_map_of_mem (f := fun m : Member => (m.1, m.2.1))
      (List.mem_cons_of_mem _ (List.mem_reverse.mpr hm)))
  optional := by
    intro p hp
    refine Or.inr ?_
    simp only [optionalMembers, List.zip_cons_cons, List.zip_nil_left, List.mem_cons,
      List.not_mem_nil, or_false] at hp
    rcases hp with rfl | rfl | rfl | rfl | rfl | rfl <;> exact ⟨rfl, rfl⟩

theorem parseDoc_otherBuild :
    parseDoc (fun _ => none) (jsonObject (otherBuild.map fun m => (m.1, m.2.2))) =
      some (stateDoc { served 0 with init := [] }) := by
  have hfits : KnobsFit { served 0 with init := [] } := { knobsFit_served 0 (by decide) with }
  exact parseDoc_of_carries _ (docFits_stateDoc hfits rfl (by decide)) ok_otherBuild
    carries_otherBuild

end Handover

end ModelFs
