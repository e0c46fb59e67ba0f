import Mathlib.Data.Finset.Basic
import MgCommonUtils.Icq.Ehaildb
import MgCommonUtils.Lib.EarlyExit

/-!
# What the operations of icq leave open

The operations of `ehaildb.cpp` as the calls that they make, each of which is checked, and the
transactions, cursors and schema locks of HailDB that are open. `get` closes its cursor and commits
before it returns false. The other operations return at once, so that they leave a transaction open,
unless the call that failed was made before the transaction, or was the commit and gave the
transaction free all the same (`unchanged_iff`). What `insert` and `get_next` leave open on tables
is what their calls leave open (`Ehaildb.leaves_insert`, `Ehaildb.leaves_getNext`).
-/

namespace MgCommonUtils.Icq

open MgCommonUtils.Lib

/-! ## The model -/

/-- A call of HailDB whose result an operation checks. -/
inductive Api where
  /-- A call on rows, or of a transaction. -/
  | row (c : Call)
  /-- `ib_table_schema_create`. -/
  | tableSchemaCreate
  /-- `ib_table_schema_add_col`, for `pos`. -/
  | tableSchemaAddColPos
  /-- `ib_table_schema_add_col`, for `data`. -/
  | tableSchemaAddColData
  /-- `ib_table_schema_add_index`. -/
  | tableSchemaAddIndex
  /-- `ib_index_schema_add_col`. -/
  | indexSchemaAddCol
  /-- `ib_index_schema_set_clustered`. -/
  | indexSchemaSetClustered
  /-- `ib_schema_lock_exclusive`. -/
  | schemaLockExclusive
  /-- `ib_schema_unlock`. -/
  | schemaUnlock
  /-- `ib_table_create`. -/
  | tableCreate
  /-- `ib_table_drop`. -/
  | tableDrop
  /-- `ib_cursor_first`. -/
  | cursorFirst
  /-- `ib_cursor_last`. -/
  | cursorLast
  /-- The test of `get` for `res != 0`, which fails where no row has the position. -/
  | res
  deriving DecidableEq

/-- What is open in HailDB. -/
structure Handles (H : Type*) where
  /-- The transactions that are open. -/
  trxs : Finset H
  /-- The cursors that are open. -/
  crsrs : Finset H
  /-- The transactions that hold a schema lock. -/
  locks : Finset H
  deriving DecidableEq

/-- How HailDB answers the calls of an operation. -/
structure Answers (H : Type*) where
  /-- The call fails. -/
  fails : Api → Bool
  /-- The call, if it fails, gives free what it should give free. -/
  frees : Api → Bool
  /-- The transaction that `ib_trx_begin` gives. -/
  trx : H
  /-- The cursor that `ib_cursor_open_table` gives. -/
  crsr : H

variable {H : Type*} [DecidableEq H]

/-- What a call gives free. -/
def Answers.release (a : Answers H) (s : Handles H) : Api → Handles H
  | .row .trxCommit => { s with trxs := s.trxs.erase a.trx }
  | .row .cursorClose => { s with crsrs := s.crsrs.erase a.crsr }
  | .schemaUnlock => { s with locks := s.locks.erase a.trx }
  | _ => s

/-- What a call opens, or gives free. -/
def Answers.perform (a : Answers H) (s : Handles H) : Api → Handles H
  | .row .trxBegin => { s with trxs := insert a.trx s.trxs }
  | .row .cursorOpenTable => { s with crsrs := insert a.crsr s.crsrs }
  | .schemaLockExclusive => { s with locks := insert a.trx s.locks }
  | c => a.release s c

/-- The calls of HailDB. One that fails opens nothing. -/
def Answers.calls (a : Answers H) : Calls Api (Handles H) where
  fails := a.fails
  done c s := a.perform s c
  failed c s := if a.frees c then a.release s c else s

/-- Calls that are checked, with nothing to do before `false` is returned. -/
def checked (cs : List Api) : List (Checked Api) := cs.map fun c => ⟨c, []⟩

/-- Calls that are checked in a transaction, after some that need none. -/
def transaction (before body : List Api) : List (Checked Api) :=
  checked (before ++ .row .trxBegin :: body ++ [.row .trxCommit])

/-- An operation. -/
inductive Op where
  /-- `create_table`. -/
  | createTable
  /-- `drop_table`. -/
  | dropTable
  /-- `insert`. -/
  | insert
  /-- `get`. -/
  | get
  /-- `get_next`. -/
  | getNext
  /-- `get_latest`. -/
  | getLatest
  /-- `get_oldest`. -/
  | getOldest
  deriving DecidableEq

/-- The calls that an operation makes before it begins its transaction. -/
def Op.before : Op → List Api
  | .createTable => [.tableSchemaCreate, .tableSchemaAddColPos, .tableSchemaAddColData,
      .tableSchemaAddIndex, .indexSchemaAddCol, .indexSchemaSetClustered]
  | _ => []

/-- The calls that an operation makes in its transaction, in front of the commit. -/
def Op.body : Op → List Api
  | .createTable => [.schemaLockExclusive, .tableCreate, .schemaUnlock]
  | .dropTable => [.schemaLockExclusive, .tableDrop, .schemaUnlock]
  | .insert => [.row .cursorOpenTable, .row .tupleWriteI64, .row .colSetValue,
      .row .cursorInsertRow, .row .cursorClose]
  | .get => [.row .cursorOpenTable, .row .tupleWriteI64, .row .cursorMoveto, .res,
      .row .cursorReadRow, .row .cursorClose]
  | .getNext => [.row .cursorOpenTable, .row .tupleWriteI64, .row .cursorMoveto, .row .cursorNext,
      .row .cursorReadRow, .row .tupleReadI64, .row .cursorClose]
  | .getLatest => [.row .cursorOpenTable, .cursorLast, .row .cursorReadRow, .row .tupleReadI64,
      .row .cursorClose]
  | .getOldest => [.row .cursorOpenTable, .cursorFirst, .row .cursorReadRow, .row .tupleReadI64,
      .row .cursorClose]

/-- `get`, which gives free what it has opened before it returns false. -/
def get : List (Checked Api) :=
  let unwind : List Api := [.row .cursorClose, .row .trxCommit]
  [⟨.row .trxBegin, []⟩, ⟨.row .cursorOpenTable, [.row .trxCommit]⟩, ⟨.row .tupleWriteI64, unwind⟩,
    ⟨.row .cursorMoveto, unwind⟩, ⟨.res, unwind⟩, ⟨.row .cursorReadRow, unwind⟩,
    ⟨.row .cursorClose, [.row .trxCommit]⟩, ⟨.row .trxCommit, []⟩]

/-- The calls of an operation. -/
def Op.calls : Op → List (Checked Api)
  | .get => Icq.get
  | op => transaction op.before op.body

/-! ## The calls -/

/-- HailDB gives a handle that is not in use. -/
structure Answers.Fresh (a : Answers H) (s : Handles H) : Prop where
  /-- The transaction is a new one. -/
  trx : a.trx ∉ s.trxs
  /-- The cursor is a new one. -/
  crsr : a.crsr ∉ s.crsrs
  /-- The transaction holds no lock. -/
  lock : a.trx ∉ s.locks

/-- The call gives free what it should give free: it succeeds, or does so although it fails. -/
def Answers.releases (a : Answers H) (c : Api) : Bool := !a.fails c || a.frees c

/-- The calls that open something, or give something free. -/
def Api.Quiet : Api → Prop
  | .row .trxBegin | .row .trxCommit | .row .cursorOpenTable | .row .cursorClose
  | .schemaLockExclusive | .schemaUnlock => False
  | _ => True

instance : DecidablePred Api.Quiet := fun c => by
  unfold Api.Quiet
  split <;> infer_instance

/-- A quiet call gives nothing free. -/
theorem Answers.release_of_quiet (a : Answers H) {c : Api} (h : c.Quiet) (s : Handles H) :
    a.release s c = s := by
  unfold Answers.release
  split
  · cases h
  · cases h
  · cases h
  · rfl

/-- A quiet call changes nothing. -/
theorem Answers.perform_of_quiet (a : Answers H) {c : Api} (h : c.Quiet) (s : Handles H) :
    a.perform s c = s := by
  unfold Answers.perform
  split
  · cases h
  · cases h
  · cases h
  · exact a.release_of_quiet h s

/-- A quiet call changes nothing, whether or not it fails. -/
theorem Answers.after_of_quiet (a : Answers H) {c : Api} (h : c.Quiet) (s : Handles H) :
    a.calls.after s c = s := by
  unfold Calls.after Answers.calls
  dsimp only
  rw [a.release_of_quiet h, a.perform_of_quiet h, ite_self, ite_self]

/-- A call that gives something free does so if it succeeds, or although it fails. -/
theorem Answers.after_eq_release (a : Answers H) {c : Api}
    (hperform : ∀ s, a.perform s c = a.release s c) (s : Handles H) :
    a.calls.after s c = if a.releases c then a.release s c else s := by
  have hafter : a.calls.after s c =
      if a.fails c then (if a.frees c then a.release s c else s) else a.perform s c := rfl
  rw [hafter, hperform, Answers.releases]
  cases hfails : a.fails c with
  | false => rfl
  | true => rw [if_pos rfl, Bool.not_true, Bool.false_or]

/-- What is open after the commit. -/
theorem Answers.after_trxCommit (a : Answers H) (s : Handles H) :
    a.calls.after s (.row .trxCommit) =
      if a.releases (.row .trxCommit) then { s with trxs := s.trxs.erase a.trx } else s :=
  a.after_eq_release (fun _ => rfl) s

/-- What is open after a cursor was closed. -/
theorem Answers.after_cursorClose (a : Answers H) (s : Handles H) :
    a.calls.after s (.row .cursorClose) =
      if a.releases (.row .cursorClose) then { s with crsrs := s.crsrs.erase a.crsr } else s :=
  a.after_eq_release (fun _ => rfl) s

/-- A transaction is ended by a commit only. -/
theorem Answers.trx_mem_after (a : Answers H) {c : Api} (hc : c ≠ .row .trxCommit) {s : Handles H}
    (h : a.trx ∈ s.trxs) : a.trx ∈ (a.calls.after s c).trxs := by
  have hrelease : (a.release s c).trxs = s.trxs := by
    unfold Answers.release
    split
    · exact absurd rfl hc
    all_goals rfl
  have hperform : a.trx ∈ (a.perform s c).trxs := by
    unfold Answers.perform
    split
    · exact Finset.mem_insert_self _ _
    · exact h
    · exact h
    · rw [hrelease]
      exact h
  unfold Calls.after Answers.calls
  dsimp only
  split
  · split
    · rw [hrelease]
      exact h
    · exact h
  · exact hperform

/-! ## The operations -/

/-- What is open in a transaction. -/
def Answers.begun (a : Answers H) (s : Handles H) : Handles H :=
  { s with trxs := insert a.trx s.trxs }

/-- What is open after the transaction, if it ends. -/
theorem Answers.after_trxCommit_begun (a : Answers H) {s : Handles H} (h : a.Fresh s) :
    a.calls.after (a.begun s) (.row .trxCommit) =
      if a.releases (.row .trxCommit) then s else a.begun s := by
  rw [a.after_trxCommit, begun, Finset.erase_insert h.trx]

omit [DecidableEq H] in
/-- Where a transaction is open, there is more than before. -/
theorem Answers.Fresh.ne_of_mem {a : Answers H} {s t : Handles H} (h : a.Fresh s)
    (ht : a.trx ∈ t.trxs) : t ≠ s := by
  rintro rfl
  exact h.trx ht

/-- The end of an operation without cleanup, whose calls in the transaction, if they succeed, leave
nothing open but the transaction: if it returns false, there is as much open as before if and only
if it has ended at the commit, and the transaction is gone. -/
theorem body_unchanged_iff {a : Answers H} {s : Handles H} (h : a.Fresh s) {body : List Api}
    (hbody : .row .trxCommit ∉ body) (hrestore : body.foldl a.perform (a.begun s) = a.begun s) :
    ((a.calls.exec (a.begun s) (checked (body ++ [.row .trxCommit]))).1 = false →
      (a.calls.exec (a.begun s) (checked (body ++ [.row .trxCommit]))).2 = s) ↔
    (∀ c ∈ body, a.fails c = false) ∧ a.releases (.row .trxCommit) = true := by
  have hsplit : checked (body ++ [.row .trxCommit]) = checked body ++ [⟨.row .trxCommit, []⟩] :=
    List.map_append
  have hmem : ∀ x ∈ checked body, ∃ c ∈ body, x = ⟨c, []⟩ := by
    intro x hx
    obtain ⟨c, hc, rfl⟩ := List.mem_map.mp hx
    exact ⟨c, hc, rfl⟩
  rw [hsplit, a.calls.exec_append]
  by_cases hok : ∀ c ∈ body, a.fails c = false
  · have hexec : a.calls.exec (a.begun s) (checked body) = (true, a.begun s) := by
      have hcalls : ∀ x ∈ checked body, a.calls.fails x.call = false := by
        intro x hx
        obtain ⟨c, hc, rfl⟩ := hmem x hx
        exact hok c hc
      have hfold : (checked body).foldl (fun s x => a.calls.done x.call s) (a.begun s) =
          body.foldl a.perform (a.begun s) := List.foldl_map
      rw [a.calls.exec_of_not_fails hcalls, hfold, hrestore]
    rw [hexec, if_pos rfl]
    dsimp only
    rw [Calls.exec, a.after_trxCommit_begun h]
    dsimp only [List.foldl_nil]
    cases hfails : a.fails (.row .trxCommit) with
    | false =>
      have hcommit : a.releases (.row .trxCommit) = true := by rw [Answers.releases, hfails]; rfl
      rw [if_neg (show ¬a.calls.fails (.row .trxCommit) = true from Bool.eq_false_iff.mp hfails),
        hcommit]
      exact ⟨fun _ => ⟨hok, rfl⟩, fun _ hret => absurd hret.symm Bool.false_ne_true⟩
    | true =>
      rw [if_pos (show a.calls.fails (.row .trxCommit) = true from hfails)]
      dsimp only
      cases hfrees : a.releases (.row .trxCommit) with
      | true => exact ⟨fun _ => ⟨hok, rfl⟩, fun _ _ => rfl⟩
      | false =>
        have hleft : a.begun s ≠ s := h.ne_of_mem (Finset.mem_insert_self _ _)
        exact ⟨fun hsame => absurd (hsame rfl) hleft,
          fun hright => absurd hright.2 Bool.false_ne_true⟩
  · -- the call that fails leaves the transaction open
    obtain ⟨c, hc, hfails⟩ : ∃ c ∈ body, a.fails c = true := by
      push Not at hok
      obtain ⟨c, hc, hfails⟩ := hok
      exact ⟨c, hc, Bool.eq_true_of_not_eq_false hfails⟩
    have hret : (a.calls.exec (a.begun s) (checked body)).1 = false :=
      a.calls.exec_of_fails (show ⟨c, []⟩ ∈ checked body from List.mem_map_of_mem hc) hfails _
    have hopen : a.trx ∈ (a.calls.exec (a.begun s) (checked body)).2.trxs := by
      refine a.calls.exec_invariant (P := fun t => a.trx ∈ t.trxs) ?_ (Finset.mem_insert_self _ _)
      intro x hx c' hc' t ht
      obtain ⟨c, hc, rfl⟩ := hmem x hx
      obtain rfl := List.mem_singleton.mp hc'
      exact a.trx_mem_after (fun heq => hbody (heq ▸ hc)) ht
    rw [if_neg (Bool.eq_false_iff.mp hret)]
    exact ⟨fun hsame => absurd (hsame hret) (h.ne_of_mem hopen), fun hright => absurd hright.1 hok⟩

/-- An operation without cleanup. -/
theorem transaction_unchanged_iff {a : Answers H} {s : Handles H} (h : a.Fresh s)
    {before body : List Api} (hbefore : ∀ c ∈ before, c.Quiet) (hbody : .row .trxCommit ∉ body)
    (hrestore : body.foldl a.perform (a.begun s) = a.begun s) :
    ((a.calls.exec s (transaction before body)).1 = false →
      (a.calls.exec s (transaction before body)).2 = s) ↔
    (∃ c ∈ before ++ [.row .trxBegin], a.fails c = true) ∨
      (∀ c ∈ body, a.fails c = false) ∧ a.releases (.row .trxCommit) = true := by
  have hsplit : transaction before body = (before.map fun c => ⟨c, []⟩) ++
      ⟨.row .trxBegin, []⟩ :: checked (body ++ [.row .trxCommit]) := by
    rw [transaction, checked, List.append_assoc, List.map_append]
    rfl
  rw [hsplit, a.calls.exec_append,
    a.calls.exec_quiet (fun c hc s => a.after_of_quiet (hbefore c hc) s)]
  cases hany : before.any a.calls.fails with
  | true =>
    obtain ⟨c, hc, hfails⟩ := List.any_eq_true.mp hany
    exact ⟨fun _ => .inl ⟨c, List.mem_append_left _ hc, hfails⟩, fun _ _ => rfl⟩
  | false =>
    rw [if_neg Bool.false_ne_true, if_pos rfl]
    cases hbegin : a.fails (.row .trxBegin) with
    | true =>
      have hfailed : a.calls.failed (.row .trxBegin) s = s := ite_self _
      rw [a.calls.exec_cons_of_fails hbegin, hfailed]
      exact ⟨fun _ => .inl ⟨_, List.mem_append_right _ (List.mem_singleton_self _), hbegin⟩,
        fun _ _ => rfl⟩
    | false =>
      have hnone : ¬∃ c ∈ before ++ [.row .trxBegin], a.fails c = true := by
        rintro ⟨c, hc, hfails⟩
        obtain hc | hc := List.mem_append.mp hc
        · exact absurd (List.any_eq_true.mpr ⟨c, hc, hfails⟩) (Bool.eq_false_iff.mp hany)
        · rw [List.mem_singleton.mp hc, hbegin] at hfails
          cases hfails
      rw [a.calls.exec_cons_of_not_fails hbegin, or_iff_right hnone]
      exact body_unchanged_iff h hbody hrestore

/-- What `get` does before it returns false, with its cursor open. -/
theorem Answers.unwind (a : Answers H) {s : Handles H} (h : a.Fresh s) :
    a.calls.after (a.calls.after { a.begun s with crsrs := insert a.crsr s.crsrs }
        (.row .cursorClose)) (.row .trxCommit) = s ↔
      a.releases (.row .trxCommit) = true ∧ a.releases (.row .cursorClose) = true := by
  have hcrsr : { a.begun s with crsrs := insert a.crsr s.crsrs } ≠ s ∧
      { s with crsrs := insert a.crsr s.crsrs } ≠ s := by
    constructor
    · exact h.ne_of_mem (Finset.mem_insert_self _ _)
    · intro heq
      have hcrsrs := congrArg Handles.crsrs heq
      exact h.crsr (hcrsrs ▸ Finset.mem_insert_self _ _)
  rw [a.after_cursorClose, Finset.erase_insert h.crsr]
  cases hclose : a.releases (.row .cursorClose) with
  | true =>
    rw [if_pos rfl]
    change a.calls.after (a.begun s) (.row .trxCommit) = s ↔ _
    rw [a.after_trxCommit_begun h]
    cases hcommit : a.releases (.row .trxCommit) with
    | true => exact ⟨fun _ => ⟨rfl, rfl⟩, fun _ => rfl⟩
    | false =>
      exact ⟨fun heq => absurd heq (h.ne_of_mem (Finset.mem_insert_self _ _)),
        fun hr => absurd hr.1 Bool.false_ne_true⟩
  | false =>
    rw [if_neg Bool.false_ne_true, a.after_trxCommit]
    refine ⟨fun heq => ?_, fun hr => absurd hr.2 Bool.false_ne_true⟩
    split at heq
    · rw [begun, Finset.erase_insert h.trx] at heq
      exact absurd heq hcrsr.2
    · exact absurd heq hcrsr.1

/-- `get`, which ends with a commit wherever it fails in its transaction, and closes its cursor. -/
theorem get_unchanged_iff {a : Answers H} {s : Handles H} (h : a.Fresh s) :
    ((a.calls.exec s get).1 = false → (a.calls.exec s get).2 = s) ↔
    a.fails (.row .trxBegin) = true ∨ a.releases (.row .trxCommit) = true ∧
      (a.fails (.row .cursorOpenTable) = true ∨ a.releases (.row .cursorClose) = true) := by
  have hsplit : get = ⟨.row .trxBegin, []⟩ :: ⟨.row .cursorOpenTable, [.row .trxCommit]⟩ ::
      (([.row .tupleWriteI64, .row .cursorMoveto, .res, .row .cursorReadRow].map fun c =>
        ⟨c, [.row .cursorClose, .row .trxCommit]⟩) ++
        [⟨.row .cursorClose, [.row .trxCommit]⟩, ⟨.row .trxCommit, []⟩]) := rfl
  have hquiet : ∀ c ∈ [Api.row .tupleWriteI64, .row .cursorMoveto, .res, .row .cursorReadRow],
      c.Quiet := by decide
  have hcommit : a.fails (.row .trxCommit) = false → a.releases (.row .trxCommit) = true := by
    intro hfails
    rw [Answers.releases, hfails]
    rfl
  have hclose : a.fails (.row .cursorClose) = false → a.releases (.row .cursorClose) = true := by
    intro hfails
    rw [Answers.releases, hfails]
    rfl
  rw [hsplit]
  cases hbegin : a.fails (.row .trxBegin) with
  | true =>
    have hfailed : a.calls.failed (.row .trxBegin) s = s := ite_self _
    rw [a.calls.exec_cons_of_fails hbegin, hfailed]
    exact ⟨fun _ => .inl rfl, fun _ _ => rfl⟩
  | false =>
    rw [a.calls.exec_cons_of_not_fails hbegin, or_iff_right Bool.false_ne_true]
    change ((a.calls.exec (a.begun s) _).1 = false → (a.calls.exec (a.begun s) _).2 = s) ↔ _
    cases hopen : a.fails (.row .cursorOpenTable) with
    | true =>
      have hfailed : a.calls.failed (.row .cursorOpenTable) (a.begun s) = a.begun s := ite_self _
      rw [a.calls.exec_cons_of_fails hopen, hfailed]
      change (false = false → a.calls.after (a.begun s) (.row .trxCommit) = s) ↔ _
      rw [a.after_trxCommit_begun h]
      cases hfrees : a.releases (.row .trxCommit) with
      | true => exact ⟨fun _ => ⟨rfl, .inl rfl⟩, fun _ _ => rfl⟩
      | false =>
        have hleft : a.begun s ≠ s := h.ne_of_mem (Finset.mem_insert_self _ _)
        exact ⟨fun hsame => absurd (hsame rfl) hleft,
          fun hright => absurd hright.1 Bool.false_ne_true⟩
    | false =>
      -- With the cursor open, what is left depends on how it ends.
      have hunwind := a.unwind h
      rw [a.calls.exec_cons_of_not_fails hopen, a.calls.exec_append,
        a.calls.exec_quiet (fun c hc s => a.after_of_quiet (hquiet c hc) s),
        or_iff_right Bool.false_ne_true]
      split
      · rw [if_neg Bool.false_ne_true]
        exact ⟨fun hsame => hunwind.mp (hsame rfl), fun hright _ => hunwind.mpr hright⟩
      · rw [if_pos rfl]
        dsimp only
        rw [Calls.exec]
        cases hfails : a.fails (.row .cursorClose) with
        | true =>
          rw [if_pos (show a.calls.fails (.row .cursorClose) = true from hfails)]
          exact ⟨fun hsame => hunwind.mp (hsame rfl), fun hright _ => hunwind.mpr hright⟩
        | false =>
          rw [if_neg (show ¬a.calls.fails (.row .cursorClose) = true from
            Bool.eq_false_iff.mp hfails), Calls.exec]
          cases hlast : a.fails (.row .trxCommit) with
          | true =>
            rw [if_pos (show a.calls.fails (.row .trxCommit) = true from hlast)]
            exact ⟨fun hsame => hunwind.mp (hsame rfl), fun hright _ => hunwind.mpr hright⟩
          | false =>
            rw [if_neg (show ¬a.calls.fails (.row .trxCommit) = true from
              Bool.eq_false_iff.mp hlast)]
            exact ⟨fun _ => ⟨hcommit hlast, hclose hfails⟩,
              fun _ hret => absurd hret.symm Bool.false_ne_true⟩

/-! ## What is left open -/

/-- The answers with which an operation leaves nothing open: a call fails before there is a
transaction, or at its end; or the operation is `get`, and what it closes and commits is gone. -/
def Answers.Clean (a : Answers H) (op : Op) : Prop :=
  (∃ c ∈ op.before ++ [.row .trxBegin], a.fails c = true) ∨
    (∀ c ∈ op.body, a.fails c = false) ∧ a.releases (.row .trxCommit) = true ∨
    op = .get ∧ a.releases (.row .trxCommit) = true ∧
      (a.fails (.row .cursorOpenTable) = true ∨ a.releases (.row .cursorClose) = true)

/-- The calls in a transaction, if they succeed, close what they open. -/
theorem Answers.foldl_body {a : Answers H} {s : Handles H} (h : a.Fresh s) (op : Op) :
    op.body.foldl a.perform (a.begun s) = a.begun s := by
  have hlock : (insert a.trx s.locks).erase a.trx = s.locks := Finset.erase_insert h.lock
  have hcrsr : (insert a.crsr s.crsrs).erase a.crsr = s.crsrs := Finset.erase_insert h.crsr
  cases op with
  | createTable | dropTable =>
    change { a.begun s with locks := (insert a.trx s.locks).erase a.trx } = a.begun s
    rw [hlock]
    rfl
  | insert | get | getNext | getLatest | getOldest =>
    change { a.begun s with crsrs := (insert a.crsr s.crsrs).erase a.crsr } = a.begun s
    rw [hcrsr]
    rfl

/-- An operation that returns false leaves the transactions, the cursors and the schema locks that
are open as they were if and only if the answers are such. -/
theorem unchanged_iff {a : Answers H} {s : Handles H} (h : a.Fresh s) (op : Op) :
    ((a.calls.exec s op.calls).1 = false → (a.calls.exec s op.calls).2 = s) ↔ a.Clean op := by
  have hbefore : ∀ c ∈ op.before, c.Quiet := by cases op <;> decide
  have hbody : .row .trxCommit ∉ op.body := by cases op <;> decide
  have htrans : op ≠ .get → (((a.calls.exec s (transaction op.before op.body)).1 = false →
      (a.calls.exec s (transaction op.before op.body)).2 = s) ↔ a.Clean op) := by
    intro hget
    rw [transaction_unchanged_iff h hbefore hbody (a.foldl_body h op), Answers.Clean,
      or_iff_left (b := op = .get ∧ _) fun hr => hget hr.1]
  cases op with
  | get =>
    refine (get_unchanged_iff h).trans ⟨?_, ?_⟩
    · rintro (hbegin | hends)
      · exact .inl ⟨_, List.mem_singleton_self _, hbegin⟩
      · exact .inr (.inr ⟨rfl, hends⟩)
    · rintro (⟨c, hc, hfails⟩ | ⟨hok, hcommit⟩ | ⟨-, hends⟩)
      · exact .inl (List.mem_singleton.mp hc ▸ hfails)
      · -- where no call fails before the commit, the cursor is closed
        refine .inr ⟨hcommit, .inr ?_⟩
        rw [Answers.releases, hok (.row .cursorClose) (by decide)]
        rfl
      · exact .inr hends
  | createTable | dropTable | insert | getNext | getLatest | getOldest =>
    exact htrans (by decide)

/-- `get` leaves nothing open where the row cannot be read. -/
theorem unchanged_iff_get : (Answers.calls ⟨(· = .row .cursorReadRow), fun _ => false, 1, 2⟩).exec
    ⟨{0}, ∅, ∅⟩ Op.get.calls = (false, ⟨{0}, ∅, ∅⟩) := by
  have hfresh : Answers.Fresh ⟨(· = .row .cursorReadRow), fun _ => false, 1, 2⟩
      (⟨{0}, ∅, ∅⟩ : Handles ℕ) := ⟨by decide, by decide, by decide⟩
  have hret : ((Answers.calls ⟨(· = .row .cursorReadRow), fun _ => false, 1, 2⟩).exec
      (⟨{0}, ∅, ∅⟩ : Handles ℕ) Op.get.calls).1 = false := by decide
  refine Prod.ext hret ((unchanged_iff hfresh .get).mpr ?_ hret)
  exact .inr (.inr ⟨rfl, by decide, .inr (by decide)⟩)

/-- `insert` leaves its transaction and its cursor open where the table has a row with the position,
say. -/
theorem not_unchanged : ∃ (a : Answers ℕ) (s : Handles ℕ), a.Fresh s ∧
    (a.calls.exec s Op.insert.calls).1 = false ∧
    s = ⟨∅, ∅, ∅⟩ ∧ (a.calls.exec s Op.insert.calls).2 = ⟨{1}, {2}, ∅⟩ ∧
    ¬((a.calls.exec s Op.insert.calls).1 = false → (a.calls.exec s Op.insert.calls).2 = s) :=
  ⟨⟨(· = .row .cursorInsertRow), fun _ => false, 1, 2⟩, ⟨∅, ∅, ∅⟩,
    ⟨by decide, by decide, by decide⟩, by decide, rfl, by decide, by decide⟩

/-! ## The operations on tables -/

section Tables

variable {Name : Type*}

/-- What an object has open, with its handles in the order of their opening. -/
def Ehaildb.handles (s : Ehaildb Name) : Handles ℕ := ⟨Finset.range s.trxs, Finset.range s.crsrs, ∅⟩

/-- The answers to an operation: the calls fail that are to fail, and those that `meets` says, for
what they find in the table. -/
def Ehaildb.answers (s : Ehaildb Name) (fails meets : Call → Bool) : Answers ℕ where
  fails
    | .row c => fails c || meets c
    | _ => false
  frees _ := false
  trx := s.trxs
  crsr := s.crsrs

/-- An operation on tables returns what its calls return, and leaves open what they leave open. -/
def Ehaildb.Leaves {β : Type*} (ok : β → Bool) (x : Bool × Handles ℕ) (y : Ehaildb Name × β) :
    Prop :=
  x = (ok y.2, y.1.handles)

variable {s t u : Ehaildb Name} {fails meets : Call → Bool} {β : Type*} {ok : β → Bool} {c : Call}
  {cs : List Api} {err : β} {y : Ehaildb Name × β}

/-- A call that finds what it does not expect. -/
theorem Ehaildb.Leaves.found (hmeets : meets c = true) (herr : ok err = false) :
    Leaves ok ((s.answers fails meets).calls.exec t.handles (checked (.row c :: cs))) (t, err) := by
  have hfails : (s.answers fails meets).calls.fails (.row c) = true := by
    change (fails c || meets c) = true
    rw [hmeets, Bool.or_true]
  have hfailed : (s.answers fails meets).calls.failed (.row c) t.handles = t.handles := rfl
  rw [Leaves, herr]
  exact (Calls.exec_cons_of_fails _ hfails [] t.handles (checked cs)).trans (by rw [hfailed]; rfl)

/-- A call that fails, or behind which the operation goes on. -/
theorem Ehaildb.Leaves.call (hmeets : meets c = false) (herr : ok err = false)
    (hnext : (s.answers fails meets).perform t.handles (.row c) = u.handles)
    (h : Leaves ok ((s.answers fails meets).calls.exec u.handles (checked cs)) y) :
    Leaves ok ((s.answers fails meets).calls.exec t.handles (checked (.row c :: cs)))
      (if fails c = true then (t, err) else y) := by
  cases hc : fails c with
  | true =>
    have hfails : (s.answers fails meets).calls.fails (.row c) = true := by
      change (fails c || meets c) = true
      rw [hc, Bool.true_or]
    rw [if_pos rfl, Leaves, herr]
    exact Calls.exec_cons_of_fails _ hfails [] t.handles (checked cs)
  | false =>
    have hfails : (s.answers fails meets).calls.fails (.row c) = false := by
      change (fails c || meets c) = false
      rw [hc, hmeets, Bool.or_false]
    rw [if_neg Bool.false_ne_true]
    rw [← hnext] at h
    exact (Calls.exec_cons_of_not_fails _ hfails [] t.handles (checked cs)).trans h

/-- The last handle is closed. -/
theorem erase_range (n : ℕ) : (Finset.range (n + 1)).erase n = Finset.range n := by
  rw [Finset.range_add_one, Finset.erase_insert Finset.notMem_range_self]

/-- The transaction is begun. -/
theorem Ehaildb.perform_trxBegin (s : Ehaildb Name) (fails meets : Call → Bool) :
    (s.answers fails meets).perform s.handles (.row .trxBegin) =
      ({ s with trxs := s.trxs + 1 } : Ehaildb Name).handles :=
  congrArg (Handles.mk · _ _) Finset.range_add_one.symm

/-- The cursor is opened. -/
theorem Ehaildb.perform_cursorOpenTable (s : Ehaildb Name) (fails meets : Call → Bool) (n : ℕ) :
    (s.answers fails meets).perform ({ s with trxs := n } : Ehaildb Name).handles
      (.row .cursorOpenTable) =
      ({ s with trxs := n, crsrs := s.crsrs + 1 } : Ehaildb Name).handles :=
  congrArg (Handles.mk _ · _) Finset.range_add_one.symm

/-- The cursor is closed. -/
theorem Ehaildb.perform_cursorClose (s : Ehaildb Name) (fails meets : Call → Bool)
    (hcrsrs : t.crsrs = s.crsrs + 1) : (s.answers fails meets).perform t.handles
      (.row .cursorClose) = ({ t with crsrs := t.crsrs - 1 } : Ehaildb Name).handles := by
  refine congrArg (Handles.mk _ · _) ?_
  rw [handles, hcrsrs]
  exact erase_range s.crsrs

/-- The transaction is committed. -/
theorem Ehaildb.perform_trxCommit (s : Ehaildb Name) (fails meets : Call → Bool)
    (htrxs : t.trxs = s.trxs + 1) : (s.answers fails meets).perform t.handles (.row .trxCommit) =
      ({ t with trxs := t.trxs - 1 } : Ehaildb Name).handles := by
  refine congrArg (Handles.mk · _ _) ?_
  rw [handles, htrxs]
  exact erase_range s.trxs

/-- The calls of `insert` that fail for what they find: no table, or a row with the position. -/
def Ehaildb.insertMeets (s : Ehaildb Name) (name : Name) (data : Bytes) : Call → Bool
  | .cursorOpenTable => (s.tables name).isNone
  | .cursorInsertRow => (s.tables name).any fun t => (t.insert (s.tinfo name) data).isNone
  | _ => false

/-- `insert` on tables leaves open what its calls leave open. -/
theorem Ehaildb.leaves_insert [DecidableEq Name] (s : Ehaildb Name) (fails : Call → Bool)
    (name : Name) (data : Bytes) : Leaves Except.toBool
      ((s.answers fails (s.insertMeets name data)).calls.exec s.handles Op.insert.calls)
      (s.insert fails name data) := by
  unfold Ehaildb.insert
  refine .call rfl rfl (s.perform_trxBegin _ _) ?_
  dsimp only
  cases ht : s.tables name with
  | none => exact .found (by rw [insertMeets, ht]; rfl) rfl
  | some t =>
    refine .call (by rw [insertMeets, ht]; rfl) rfl (s.perform_cursorOpenTable _ _ _) ?_
    -- `cur_id` changes, and nothing is opened or closed.
    refine .call (t := { s with
      trxs := s.trxs + 1, crsrs := s.crsrs + 1,
      tinfo := Function.update s.tinfo name (incr (s.tinfo name)) }) rfl rfl rfl ?_
    refine .call rfl rfl rfl ?_
    cases hrow : t.insert (s.tinfo name) data with
    | none =>
      have hmeets : s.insertMeets name data .cursorInsertRow = true := by
        rw [insertMeets, ht, Option.any_some, hrow]
        rfl
      split
      · exact .found hmeets rfl
      · exact .found hmeets rfl
    | some t' =>
      refine .call (by rw [insertMeets, ht, Option.any_some, hrow]; rfl) rfl rfl ?_
      exact .call rfl rfl (Ehaildb.perform_cursorClose s _ _ rfl)
        (.call rfl rfl (Ehaildb.perform_trxCommit s _ _ rfl) rfl)

/-- The calls of `get_next` that fail for want of a table, or of a row behind the position. -/
def Ehaildb.getNextMeets (s : Ehaildb Name) (name : Name) (pos : ℤ) : Call → Bool
  | .cursorOpenTable => (s.tables name).isNone
  | .cursorNext => (s.tables name).any fun t => (t.seekGe pos).tail.head?.isNone
  | _ => false

/-- `get_next` on tables leaves open what its calls leave open. -/
theorem Ehaildb.leaves_getNext (s : Ehaildb Name) (fails : Call → Bool) (name : Name) (pos : ℤ) :
    Leaves Option.isSome
      ((s.answers fails (s.getNextMeets name pos)).calls.exec s.handles Op.getNext.calls)
      (s.getNext fails name pos) := by
  unfold Ehaildb.getNext
  refine .call rfl rfl (s.perform_trxBegin _ _) ?_
  dsimp only
  cases ht : s.tables name with
  | none => exact .found (by rw [getNextMeets, ht]; rfl) rfl
  | some t =>
    refine .call (by rw [getNextMeets, ht]; rfl) rfl (s.perform_cursorOpenTable _ _ _) ?_
    refine .call rfl rfl rfl (.call rfl rfl rfl ?_)
    cases hnext : (t.seekGe pos).tail.head? with
    | none =>
      have hmeets : s.getNextMeets name pos .cursorNext = true := by
        rw [getNextMeets, ht, Option.any_some, hnext]
        rfl
      split
      · exact .found hmeets rfl
      · exact .found hmeets rfl
    | some r =>
      refine .call (by rw [getNextMeets, ht, Option.any_some, hnext]; rfl) rfl rfl ?_
      refine .call rfl rfl rfl (.call rfl rfl rfl ?_)
      exact .call rfl rfl (Ehaildb.perform_cursorClose s _ _ rfl)
        (.call rfl rfl (Ehaildb.perform_trxCommit s _ _ rfl) rfl)

end Tables
end MgCommonUtils.Icq
