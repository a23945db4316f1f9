import Locus.File.Identity

/-!
A table keyed by files. A key is found by its hash and then by equality, so two keys of one path are
one key only if their hashes are equal too. Putting a value at a key that is there already changes
the value and leaves the stored key, so the URI of an entry is that of the put which made it.
-/

namespace Locus

/-- Values by file, in the order in which their keys arrived. -/
structure FileTable (α : Type) where
  entries : List (FileId × α) := []

namespace FileTable

variable {α : Type} [Hashable Text]

/-- Whether a search for `k` ends at the stored key `k'`: only keys of one hash are compared. -/
def finds (k k' : FileId) : Bool := hash k' == hash k && k' == k

/-- The entry of a key. -/
def entry? (t : FileTable α) (k : FileId) : Option (FileId × α) :=
  t.entries.find? (finds k ·.1)

/-- The value at a key. -/
def get? (t : FileTable α) (k : FileId) : Option α := (t.entry? k).map (·.2)

/-- The URI of the stored key that equals `k`. -/
def uri? (t : FileTable α) (k : FileId) : Option CanonicalUri := (t.entry? k).map (·.1.uri)

/-- The entries with `v` at `k`: in its place if the key is there, else at the end. -/
def insertEntry (k : FileId) (v : α) : List (FileId × α) → List (FileId × α)
  | [] => [(k, v)]
  | (k', v') :: es => if finds k k' then (k', v) :: es else (k', v') :: insertEntry k v es

/-- The table with `v` at `k`. -/
def insert (t : FileTable α) (k : FileId) (v : α) : FileTable α := ⟨insertEntry k v t.entries⟩

/-- The table without the key. -/
def erase (t : FileTable α) (k : FileId) : FileTable α := ⟨t.entries.filter (!finds k ·.1)⟩

/-- The paths of the keys, in order. -/
def paths (t : FileTable α) : List Text :=
  (t.entries.map (·.1.path)).mergeSort fun a b => (compare a b).isLE

/-! ### Steps -/

/-- What is asked of a table at a key. -/
inductive Action (α : Type) where
  | put (v : α)
  | get
  | erase
  | uri

/-- What a table answers. -/
inductive Reply (α : Type) where
  | nothing
  | value (v : α)
  | uri (u : CanonicalUri)

/-- The answer to an action at a key, and the table after it. -/
def act (t : FileTable α) (k : FileId) : Action α → Reply α × FileTable α
  | .put v => (.nothing, t.insert k v)
  | .get => (((t.get? k).map .value).getD .nothing, t)
  | .erase => (((t.get? k).map .value).getD .nothing, t.erase k)
  | .uri => (((t.uri? k).map .uri).getD .nothing, t)

/-- The answers to a sequence of actions, each with the paths of the keys after it. -/
def run (t : FileTable α) : List (FileId × Action α) → List (Reply α × List Text)
  | [] => []
  | (k, a) :: rest =>
    let (reply, t) := t.act k a
    (reply, t.paths) :: t.run rest

end FileTable

end Locus
