import Mathlib.Data.Nat.Notation

/-!
# Transactions of several connections

A database file in WAL mode: readers keep the snapshot of their first statement, one connection writes at a time,
and what it writes is seen when it commits.

* `File` — what is committed, how often something was committed, and who holds the write lock.
* `Conn` — a connection in a deferred transaction.
* `Conn.exec` — a statement: it waits for the lock, fails at once on a stale snapshot, or goes through.
-/

namespace Ariad.Sqlite.Sessions

variable {σ κ ε : Type}

/-- A database file; `stamp` counts the commits. -/
structure File (σ : Type) where
  content : σ
  stamp : ℕ
  writer : Option ℕ

/-- A connection in a transaction that was begun without a lock. -/
inductive Conn (σ : Type) where
  /-- No statement has run yet. -/
  | idle
  | reading (snapshot : σ) (stamp : ℕ)
  | writing (copy : σ)

/-- What statements do; one that does not write leaves the file as it is. -/
structure Statements (σ κ ε : Type) where
  writes : κ → σ → Bool
  apply : κ → σ → Except ε σ

inductive Outcome (σ : Type) where
  /-- Another connection holds the lock. -/
  | blocked
  | failed
  | done (file : File σ) (conn : Conn σ)

variable (statements : Statements σ κ ε) (me : ℕ) (file : File σ) (st : κ)

/-- The write lock is free: the statement runs on a copy of what was read. -/
def takeLock (c : σ) : Outcome σ :=
  match statements.apply st c with
  | .error _ => .failed
  | .ok c => .done { file with writer := some me } (.writing c)

/-- A statement of a transaction. A connection that has no snapshot yet waits for the lock; one that has a snapshot
fails at once if the lock is taken or if the snapshot is not the newest. -/
def Conn.exec : Conn σ → Outcome σ
  | idle =>
    if statements.writes st file.content then
      match file.writer with
      | some _ => .blocked
      | none => takeLock statements me file st file.content
    else .done file (.reading file.content file.stamp)
  | reading snapshot stamp =>
    if statements.writes st snapshot then
      if file.writer.isSome || stamp ≠ file.stamp then .failed else takeLock statements me file st snapshot
    else .done file (.reading snapshot stamp)
  | writing copy =>
    match statements.apply st copy with
    | .error _ => .failed
    | .ok copy => .done file (.writing copy)

/-- `COMMIT` -/
def Conn.commit : Conn σ → File σ
  | writing copy => ⟨copy, file.stamp + 1, none⟩
  | _ => file

/-- `ROLLBACK`, after a statement that fails. -/
def Conn.rollback : Conn σ → File σ
  | writing _ => { file with writer := none }
  | _ => file

end Ariad.Sqlite.Sessions
