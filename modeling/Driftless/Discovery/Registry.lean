import Mathlib.Data.List.AList

/-!
# The registry

Every coordinator writes its addresses to a DynamoDB table, again and again, with the time. A lookup
returns what is there under an id, unless it is older than twice the TTL: `lookup_registered`.
-/

namespace Driftless.Discovery

/-- The types of attributes that are used. -/
inductive AttributeValue
  | s (value : String)
  | n (value : String)
  | bool (value : Bool)
  deriving DecidableEq, Repr

abbrev Item := AList fun _ : String => AttributeValue

structure Info where
  nodeID : String
  grpcAddr : String
  httpAddr : String
  deriving DecidableEq, Repr

inductive LookupError
  /-- `GetItem` failed. -/
  | getItem
  | notRegistered (nodeID : String)
  | missing (name : String)
  | badHeartbeat
  | stale (age : ℤ)
  deriving DecidableEq, Repr

/-- A second in nanoseconds. -/
def second : ℕ := 1000000000

def ttl : ℕ := 30 * second

/-- The `int64` are the integers from minus this up to it. -/
def int64Bound : ℕ := 9223372036854775808

/-- The digits of `strconv.ParseInt`. -/
def parseDigits (s : List Char) : Option ℕ :=
  if s ≠ [] ∧ s.all Char.isDigit then some (Nat.ofDigitChars 10 s 0) else none

/-- `strconv.ParseInt(s, 10, 64)`, where it returns no error. -/
def parseInt (s : String) : Option ℤ :=
  let v : Option ℤ := match s.toList with
    | '-' :: ds => (parseDigits ds).map fun v => -(v : ℤ)
    | '+' :: ds => (parseDigits ds).map Nat.cast
    | ds => (parseDigits ds).map Nat.cast
  v.filter fun v => -int64Bound ≤ v ∧ v < int64Bound

/-- The item that `Register` writes, `sent` nanoseconds after the epoch. -/
def Info.item (self : Info) (isLeader : Bool) (sent : ℕ) : Item :=
  let now := sent / second
  let expires := now + ttl / second
  (((((AList.insert "node_id" (.s self.nodeID) ∅).insert
    "grpc_addr" (.s self.grpcAddr)).insert
    "http_addr" (.s self.httpAddr)).insert
    "heartbeat_ts" (.n now.repr)).insert
    "expires_at" (.n expires.repr)).insert
    "is_leader" (.bool isLeader)

def decode (item : Item) : Except LookupError Info := do
  let get k := match item.lookup k with
    | some (.s value) => .ok value
    | _ => .error (.missing k)
  let id ← get "node_id"
  let g ← get "grpc_addr"
  let h ← get "http_addr"
  return ⟨id, g, h⟩

/-- `checkFresh`, with the exact age. Go's differs only for a `heartbeat_ts` of 9223371974719179008
seconds or more, where `time.Unix` overflows; `Register` writes the time of its call. -/
def checkFresh (item : Item) (now : ℕ) : Except LookupError Unit :=
  match item.lookup "heartbeat_ts" with
  | some (.n value) =>
    match parseInt value with
    | some ts =>
      let age : ℤ := now - ts * second
      if age > 2 * ttl then .error (.stale age) else .ok ()
    | none => .error .badHeartbeat
  | _ => .error (.missing "heartbeat_ts")

abbrev Table := AList fun _ : String => Item

/-- `Lookup`, where `GetItem` is `ok` or fails. -/
def lookup (table : Table) (nodeID : String) (now : ℕ) (ok : Bool) : Except LookupError Info :=
  if ok then
    match table.lookup nodeID with
    | none => .error (.notRegistered nodeID)
    | some item => do
      let info ← decode item
      checkFresh item now
      return info
  else .error .getItem

/-! ## What a lookup finds -/

theorem parseInt_repr {n : ℕ} (hn : n < int64Bound) : parseInt n.repr = some (n : ℤ) := by
  have hdigit : ∀ c ∈ Nat.toDigits 10 n, c.isDigit = true := fun c hc =>
    Nat.isDigit_of_mem_toDigits (by decide) (by decide) hc
  have hparse : parseDigits (Nat.toDigits 10 n) = some n := by
    simp [parseDigits, List.all_eq_true.2 hdigit, Nat.toDigits_ne_nil]
  unfold parseInt
  rw [Nat.toList_repr]
  split
  next ds heq => exact absurd (hdigit '-' (by simp [heq])) (by decide)
  next ds heq => exact absurd (hdigit '+' (by simp [heq])) (by decide)
  next =>
    have hmin : -(int64Bound : ℤ) ≤ n := by omega
    have hmax : (n : ℤ) < int64Bound := by omega
    rw [hparse]
    simp only [Option.map_some, Option.filter, hmin, hmax, and_self, decide_true, if_true]

theorem lookup_item (self : Info) (isLeader : Bool) (sent : ℕ) :
    (self.item isLeader sent).lookup "node_id" = some (.s self.nodeID) ∧
      (self.item isLeader sent).lookup "grpc_addr" = some (.s self.grpcAddr) ∧
      (self.item isLeader sent).lookup "http_addr" = some (.s self.httpAddr) ∧
      (self.item isLeader sent).lookup "heartbeat_ts" = some (.n (sent / second).repr) := by
  refine ⟨?_, ?_, ?_, ?_⟩ <;> simp [Info.item, AList.lookup_insert_ne]
  rfl

theorem decode_item (self : Info) (isLeader : Bool) (sent : ℕ) :
    decode (self.item isLeader sent) = .ok self := by
  obtain ⟨hid, hgrpc, hhttp, -⟩ := lookup_item self isLeader sent
  simp [decode, hid, hgrpc, hhttp]
  rfl

theorem checkFresh_item {self : Info} {isLeader : Bool} {sent now : ℕ} (hsent : sent < int64Bound)
    (h : checkFresh (self.item isLeader sent) now = .ok ()) : now ≤ sent + 2 * ttl := by
  have hlt : sent / second < int64Bound := Nat.lt_of_le_of_lt (Nat.div_le_self _ _) hsent
  have hmul : sent / second * second ≤ sent := Nat.div_mul_le_self _ _
  rw [checkFresh, (lookup_item self isLeader sent).2.2.2] at h
  dsimp only at h
  rw [parseInt_repr hlt] at h
  dsimp only at h
  split_ifs at h with hage
  rw [← Int.natCast_mul] at hage
  omega

/-- What a lookup returns was registered under the id at most twice the TTL before. -/
theorem lookup_registered {table : Table} {self info : Info} {isLeader ok : Bool} {sent now : ℕ}
    {nodeID : String} (hrow : table.lookup nodeID = some (self.item isLeader sent))
    (hsent : sent < int64Bound) (h : lookup table nodeID now ok = .ok info) :
    info = self ∧ now ≤ sent + 2 * ttl := by
  cases ok with
  | false => simp [lookup] at h
  | true =>
    simp only [lookup, if_true, hrow, decode_item] at h
    cases hfresh : checkFresh (self.item isLeader sent) now with
    | error e =>
      rw [hfresh] at h
      cases h
    | ok u =>
      rw [hfresh] at h
      cases h
      exact ⟨rfl, checkFresh_item hsent hfresh⟩

end Driftless.Discovery
