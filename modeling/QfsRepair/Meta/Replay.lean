import QfsRepair.Meta.ChunkChanges

/-!
# Replay of the log

The table of handlers and the loop over the lines of a log.  Entries that
concern only the layout of chunks are left out of the table.
-/

namespace QfsRepair.Meta.Tree

variable (settings : Settings) (env : Environment)

/-- The handler of an entry, by its first token. -/
def replayEntry (tree : Tree) (cursor : Cursor) : Option Tree :=
  match cursor.tokens with
  | [] => some tree
  | tag :: tokens =>
    let cursor := { cursor with tokens }
    if tag = "create".toList then tree.replayCreate settings env cursor
    else if tag = "mkdir".toList then tree.replayMkdir settings env cursor
    else if tag = "remove".toList then tree.replayRemove env cursor
    else if tag = "rmdir".toList then tree.replayRmdir env cursor
    else if tag = "rename".toList then tree.replayRename env cursor
    else if tag = "allocate".toList then tree.replayAllocate env cursor
    else if tag = "truncate".toList then tree.replayTruncate env cursor
    else if tag = "coalesce".toList then tree.replayCoalesce env cursor
    else if tag = "pruneFromHead".toList then tree.replayPruneFromHead env cursor
    else if tag = "setrep".toList then tree.replaySetrep cursor
    else if tag = "setmtime".toList then tree.replaySetmtime cursor
    else if tag = "chmod".toList then tree.replayChmod cursor
    else if tag = "chown".toList then tree.replayChown cursor
    else none

/-- One line of the log. -/
def replayLine (tree : Tree) (line : Name) : Option Tree :=
  (nextEntry line).bind (replayEntry settings env tree)

/-- `playlog`: the lines of the log in order; the first entry that is refused
ends the replay. -/
def playlog (tree : Tree) (log : Name) : Option Tree :=
  (Text.lines '\n' log).foldlM (replayLine settings env) tree

@[simp]
theorem playlog_nil (tree : Tree) : playlog settings env tree [] = some tree := by
  simp [playlog]

variable {fields : List Name}

variable (tree : Tree)

/-- A line that was logged is the next one to be replayed. -/
theorem playlog_entry (rest : Name) (hlines : ∀ field ∈ fields, '\n' ∉ field)
    (hne : Text.record '/' fields ≠ []) :
    playlog settings env tree (entry fields ++ rest) =
      (replayLine settings env tree (Text.record '/' fields)).bind fun tree =>
        playlog settings env tree rest := by
  rw [playlog, lines_entry hlines hne]
  rfl

/-- A line of plain fields is replayed from these fields. -/
theorem playlog_plain {tag : Name} (rest : Name) (htag : tag ≠ [])
    (hplain : ∀ field ∈ tag :: fields, Plain field) (hcount : fields.length ≤ 100) :
    playlog settings env tree (entry (tag :: fields) ++ rest) =
      (replayEntry settings env tree ⟨tag :: fields, true⟩).bind fun tree =>
        playlog settings env tree rest := by
  have hne : Text.record '/' (tag :: fields) ≠ [] := by
    cases tag with
    | nil => exact absurd rfl htag
    | cons char chars => simp [Text.record, List.intercalate_cons_cons_left]
  have hlength : (Text.record '/' (tag :: fields)).length ≤
      (tag :: fields).length * (2 ^ 12 + 1) :=
    Text.length_record_le fun field hfield => (hplain field hfield).short
  have hfits : (tag :: fields).length ≤ maxEntryTokens ∧
      (Text.record '/' (tag :: fields)).length < maxEntrySize := by
    rw [List.length_cons] at hlength ⊢
    rw [maxEntryTokens, maxEntrySize]
    omega
  rw [playlog_entry settings env tree rest (fun field hfield => (hplain field hfield).noNewline)
    hne, replayLine, nextEntry,
    Text.splitOn_record (by simp) fun field hfield => (hplain field hfield).noSlash,
    if_pos hfits, Option.bind_some]

theorem playlog_line {tag : Name} (htag : tag ≠ [])
    (hplain : ∀ field ∈ tag :: fields, Plain field) (hcount : fields.length ≤ 100) :
    playlog settings env tree (entry (tag :: fields)) =
      replayEntry settings env tree ⟨tag :: fields, true⟩ := by
  simpa using playlog_plain settings env tree [] htag hplain hcount

end QfsRepair.Meta.Tree
