import Tracefold.Db.Extract

/-! The atoms of a document are the document, cut into pieces and put into a tree. -/

namespace Tracefold.Db

open Library Locator

/-- The line that a text opens with, without its end. -/
def opening (text : Text) : Text := (text.takeWhile (· ≠ '\n')).rdropWhile (· = '\r')

def levelOf (text : Text) : ℕ := (headingLevel (opening text)).getD 0

/-- The levels of the atoms that are headings. -/
def outlineOf (atoms : List StoredAtom) : Outline :=
  atoms.map fun atom =>
    if atom.semantic.kind.isHeading then some (levelOf atom.semantic.content) else none

/-- The levels of the blocks of a text that are headings. -/
def outline (text : Text) : Outline :=
  (buildBlocks (splitLines text)).map fun block =>
    if block.kind.isHeading then
      (splitLines text)[block.first]?.map fun line => (headingLevel line.body).getD 0
    else none

/-- Ranges end to end, each of them of a byte at least. -/
def Laid (start : ℕ) : List Range → ℕ → Prop
  | [], stop => start = stop
  | range :: ranges, stop =>
    range.byteStart = start ∧ start < range.byteEnd ∧ Laid range.byteEnd ranges stop

/-- The line that a byte of a text is on. -/
def lineAt (text : Text) (byte : ℕ) : ℕ := countBefore Char.utf8Size (· = '\n') byte text + 1

/-- The atoms are pieces of the text. -/
structure Pieces (text : Text) (atoms : List StoredAtom) : Prop where
  laid : Laid 0 (atoms.map fun atom => atom.semantic.source.range) (byteLen text)
  content : ∀ atom ∈ atoms, slice Char.utf8Size text atom.semantic.source.range.byteStart
    atom.semantic.source.range.byteEnd = some atom.semantic.content
  whole : (atoms.flatMap fun atom => atom.semantic.content) = text
  startLine : ∀ atom ∈ atoms, atom.semantic.source.range.startLine =
    lineAt text atom.semantic.source.range.byteStart
  endLine : ∀ atom ∈ atoms, atom.semantic.source.range.endLine =
    lineAt text (atom.semantic.source.range.byteEnd - 1)

/-- Each atom names the heading it stands under, and none only where there is no such heading. -/
def Parented (atoms : List StoredAtom) : Prop :=
  ∀ place atom, atoms[place]? = some atom →
    (atom.semantic.parent = none ∧ ∀ above, ¬ (outlineOf atoms).IsParent place above) ∨
      ∃ above parent, atoms[above]? = some parent ∧ (outlineOf atoms).IsParent place above ∧
        atom.semantic.parent = some parent.semantic.id

/-- The atoms under one heading are numbered one after another, and so are those under none. -/
def Ordered (atoms : List StoredAtom) : Prop :=
  ∀ place atom, atoms[place]? = some atom →
    atom.semantic.order.toNat = (outlineOf atoms).siblingsBefore place + 1

structure Lossless (text : Text) (atoms : List StoredAtom) : Prop where
  pieces : Pieces text atoms
  anchors : (atoms.map fun atom => atom.semantic.source.anchor).Nodup
  parents : Parented atoms
  orders : Ordered atoms

theorem byteLen_append (a b : Text) : byteLen (a ++ b) = byteLen a + byteLen b :=
  extent_append _ a b

theorem byteLen_pos {text : Text} (h : text ≠ []) : 0 < byteLen text :=
  extent_pos Char.utf8Size_pos h

section Rows

/-- Rows of a text: a line feed ends each but the last, and stands nowhere else. -/
def Rows : List Text → Prop
  | [] => True
  | row :: rows =>
    row ≠ [] ∧ '\n' ∉ row.dropLast ∧ (rows ≠ [] → row.getLast? = some '\n') ∧ Rows rows

/-- The lines that some rows are from a byte on. -/
def lay (start : ℕ) : List Text → List Line
  | [] => []
  | row :: rows => ⟨start, start + byteLen row, opening row⟩ :: lay (start + byteLen row) rows

theorem opening_of_not_mem {row : Text} (h : '\n' ∉ row) : opening row = row.rdropWhile (· = '\r') := by
  rw [opening, List.takeWhile_eq_self_iff.mpr]
  intro c hc
  rw [decide_eq_true_eq]
  rintro rfl
  exact h hc

theorem opening_append {row : Text} (h : '\n' ∉ row) (rest : Text) :
    opening (row ++ '\n' :: rest) = row.rdropWhile (· = '\r') := by
  rw [opening, List.takeWhile_append_of_pos, List.takeWhile_cons_of_neg (by decide),
    List.append_nil]
  intro c hc
  rw [decide_eq_true_eq]
  rintro rfl
  exact h hc

theorem rows_of_splitFrom (text : Text) : ∀ (start : ℕ) (current : Text), '\n' ∉ current →
    ∃ rows, splitFrom start (start + byteLen current) current text = lay start rows ∧
      rows.flatten = current ++ text ∧ Rows rows := by
  induction text with
  | nil =>
    intro start current hcurrent
    by_cases hempty : current = []
    · subst hempty
      exact ⟨[], by simp [splitFrom, lay], rfl, trivial⟩
    · have hpos := extent_pos Char.utf8Size_pos hempty
      have hlast : '\n' ∉ current.dropLast := fun h => hcurrent (List.dropLast_subset _ h)
      refine ⟨[current], ?_, by simp, hempty, hlast, by simp, trivial⟩
      rw [splitFrom, if_pos (Nat.lt_add_of_pos_right hpos), lay, opening_of_not_mem hcurrent]
      rfl
  | cons c text ih =>
    intro start current hcurrent
    by_cases hc : c = '\n'
    · subst hc
      obtain ⟨rows, hlay, hflatten, hrows⟩ := ih (start + byteLen current + 1) [] List.not_mem_nil
      refine ⟨(current ++ ['\n']) :: rows, ?_, ?_, ?_⟩
      · have hlen : byteLen (current ++ ['\n']) = byteLen current + 1 := by
          rw [byteLen_append]
          rfl
        rw [splitFrom, if_pos rfl, lay, opening_append hcurrent, hlen, ← Nat.add_assoc]
        exact congrArg _ hlay
      · rw [List.flatten_cons, hflatten]
        simp
      · exact ⟨by simp, by simpa using hcurrent, by simp, hrows⟩
    · have hmem : '\n' ∉ current ++ [c] := by
        simp only [List.mem_append, List.mem_singleton, not_or]
        exact ⟨hcurrent, fun h => hc h.symm⟩
      obtain ⟨rows, hlay, hflatten, hrows⟩ := ih start _ hmem
      refine ⟨rows, ?_, by rw [hflatten, List.append_assoc, List.singleton_append], hrows⟩
      rw [splitFrom, if_neg hc, ← hlay, byteLen_append, Nat.add_assoc]
      rfl

theorem rows_of_splitLines (text : Text) :
    ∃ rows, splitLines text = lay 0 rows ∧ rows.flatten = text ∧ Rows rows := by
  simpa [splitLines] using rows_of_splitFrom text 0 [] List.not_mem_nil

theorem getElem?_lay (rows : List Text) : ∀ (start i : ℕ), (lay start rows)[i]? = rows[i]?.map
    fun row => ⟨start + byteLen (rows.take i).flatten, start + byteLen (rows.take (i + 1)).flatten,
      opening row⟩ := by
  induction rows with
  | nil => intro start i; rfl
  | cons row rows ih =>
    intro start i
    cases i with
    | zero => simp [lay]
    | succ i =>
      rw [lay, List.getElem?_cons_succ, ih, List.getElem?_cons_succ, List.take_succ_cons,
        List.take_succ_cons, List.flatten_cons, List.flatten_cons, byteLen_append, byteLen_append,
        Nat.add_assoc, Nat.add_assoc]

theorem length_lay (rows : List Text) : ∀ start, (lay start rows).length = rows.length := by
  induction rows with
  | nil => intro start; rfl
  | cons row rows ih => intro start; simp [lay, ih]

theorem Rows.drop {rows : List Text} (h : Rows rows) : ∀ n, Rows (rows.drop n) := by
  induction rows with
  | nil => intro n; simpa using h
  | cons row rows ih =>
    intro n
    cases n with
    | zero => exact h
    | succ n => exact ih h.2.2.2 n

theorem eq_concat_of_getLast? {row : Text} {c : Char} (h : row.getLast? = some c) :
    row = row.dropLast ++ [c] := by
  obtain ⟨front, rfl⟩ := List.getLast?_eq_some_iff.mp h
  rw [List.dropLast_concat]

theorem Rows.count_take {rows : List Text} (h : Rows rows) : ∀ {n}, n < rows.length →
    (rows.take n).flatten.countP (· = '\n') = n := by
  induction rows with
  | nil => simp
  | cons row rows ih =>
    intro n hn
    cases n with
    | zero => rfl
    | succ n =>
      obtain ⟨_, hinner, hlast, hrows⟩ := h
      rw [List.length_cons, Nat.succ_lt_succ_iff] at hn
      have hrow := eq_concat_of_getLast? (hlast (List.ne_nil_of_length_pos (by omega)))
      have hone : row.countP (· = '\n') = 1 := by
        rw [hrow, List.countP_append, List.countP_eq_zero.mpr]
        · rfl
        · intro c hc
          rw [decide_eq_true_eq]
          rintro rfl
          exact hinner hc
      rw [List.take_succ_cons, List.flatten_cons, List.countP_append, hone, ih hrows hn, Nat.add_comm]

theorem Rows.opening_take {row : Text} {rows : List Text} (h : Rows (row :: rows)) (n : ℕ) :
    opening (row ++ (rows.take n).flatten) = opening row := by
  obtain ⟨_, hinner, hlast, _⟩ := h
  by_cases hrows : rows = []
  · subst hrows
    simp
  · rw [eq_concat_of_getLast? (hlast hrows), List.append_assoc, List.singleton_append,
      opening_append hinner, opening_append hinner]

end Rows

section Blocks

/-- Blocks end to end over the lines between two. -/
def Tiled (first : ℕ) : List Block → ℕ → Prop
  | [], stop => first = stop
  | block :: blocks, stop =>
    block.first = first ∧ first ≤ block.last ∧ Tiled (block.last + 1) blocks stop

theorem fenced_le (marker : Fence) (lines : List Line) : fenced marker lines ≤ lines.length := by
  induction lines with
  | nil => rfl
  | cons line lines ih =>
    rw [fenced, List.length_cons]
    split <;> omega

theorem blockAt_le (body : Text) (rest : List Line) : (blockAt body rest).2 ≤ rest.length := by
  rw [blockAt]
  split
  · exact (List.takeWhile_prefix _).length_le
  · split
    · exact fenced_le _ rest
    · split
      · exact Nat.zero_le _
      · split
        · exact Nat.zero_le _
        · split <;> exact (List.takeWhile_prefix _).length_le

theorem tiled_blocksFrom (index : ℕ) (lines : List Line) :
    Tiled index (blocksFrom index lines) (index + lines.length) := by
  induction index, lines using blocksFrom.induct with
  | case1 index =>
    rw [blocksFrom]
    exact rfl
  | case2 index line rest kind more hblock ih =>
    have hle : more ≤ rest.length := by
      have := blockAt_le line.body rest
      rwa [hblock] at this
    rw [blocksFrom, hblock]
    refine ⟨rfl, Nat.le_add_right _ _, ?_⟩
    have hstop : index + more + 1 + (rest.drop more).length = index + (line :: rest).length := by
      rw [List.length_drop, List.length_cons]
      omega
    rw [← hstop]
    exact ih

theorem Tiled.first_le {first stop : ℕ} {blocks : List Block} (h : Tiled first blocks stop) :
    first ≤ stop := by
  induction blocks generalizing first with
  | nil => exact h.le
  | cons block blocks ih =>
    have := ih h.2.2
    have := h.2.1
    omega

theorem Tiled.mem {first stop : ℕ} {blocks : List Block} (h : Tiled first blocks stop) :
    ∀ block ∈ blocks, block.first ≤ block.last ∧ block.last < stop := by
  induction blocks generalizing first with
  | nil => simp
  | cons block blocks ih =>
    obtain ⟨hfirst, hle, hrest⟩ := h
    have hstop := hrest.first_le
    intro other hother
    obtain rfl | hother := List.mem_cons.mp hother
    · omega
    · exact ih hrest other hother

end Blocks

section Taken

/-- What a block takes out of a text. -/
structure Taken (text : Text) (block : Block) (first last : Line) (content : Text) : Prop where
  opens : (splitLines text)[block.first]? = some first
  closes : (splitLines text)[block.last]? = some last
  cut : slice Char.utf8Size text first.start last.stop = some content
  body : opening content = first.body
  startLine : block.first + 1 = lineAt text first.start
  endLine : block.last + 1 = lineAt text (last.stop - 1)

theorem take_flatten (rows : List Text) {first last : ℕ} (h : first ≤ last) :
    (rows.take (last + 1)).flatten =
      (rows.take first).flatten ++ ((rows.drop first).take (last + 1 - first)).flatten := by
  rw [← List.flatten_append, ← List.take_add]
  congr 2
  omega

theorem cut_flatten (rows : List Text) {first last : ℕ} (h : first ≤ last) :
    rows.flatten = (rows.take first).flatten ++
      (((rows.drop first).take (last + 1 - first)).flatten ++ (rows.drop (last + 1)).flatten) := by
  rw [← List.append_assoc, ← take_flatten rows h, ← List.flatten_append, List.take_append_drop]

theorem slice_rows (rows : List Text) {first last : ℕ} (h : first ≤ last) :
    slice Char.utf8Size rows.flatten (byteLen (rows.take first).flatten)
      (byteLen (rows.take (last + 1)).flatten) =
        some ((rows.drop first).take (last + 1 - first)).flatten := by
  rw [take_flatten rows h, byteLen_append, cut_flatten rows h]
  exact slice_append Char.utf8Size_pos _ _ _

theorem Rows.lineAt_start {rows : List Text} (h : Rows rows) {n : ℕ} (hn : n < rows.length) :
    lineAt rows.flatten (byteLen (rows.take n).flatten) = n + 1 := by
  have hcut : rows.flatten = (rows.take n).flatten ++ (rows.drop n).flatten := by
    rw [← List.flatten_append, List.take_append_drop]
  rw [lineAt]
  nth_rewrite 1 [hcut]
  rw [countBefore_extent Char.utf8Size_pos, h.count_take hn]

theorem Rows.lineAt_last {rows : List Text} (h : Rows rows) {n : ℕ} (hn : n < rows.length) :
    lineAt rows.flatten (byteLen (rows.take (n + 1)).flatten - 1) = n + 1 := by
  have hdrop : rows.drop n = rows[n] :: rows.drop (n + 1) := List.drop_eq_getElem_cons hn
  have hrow := h.drop n
  rw [hdrop] at hrow
  obtain ⟨hne, hinner, _, _⟩ := hrow
  have hconcat := List.dropLast_append_getLast hne
  have hcut : rows.flatten = ((rows.take n).flatten ++ rows[n].dropLast) ++
      ([rows[n].getLast hne] ++ (rows.drop (n + 1)).flatten) := by
    calc rows.flatten = (rows.take n).flatten ++ (rows.drop n).flatten := by
          rw [← List.flatten_append, List.take_append_drop]
      _ = (rows.take n).flatten ++ ((rows[n].dropLast ++ [rows[n].getLast hne]) ++
            (rows.drop (n + 1)).flatten) := by
          rw [hdrop, List.flatten_cons, hconcat]
      _ = _ := by simp only [List.append_assoc]
  have htake : (rows.take (n + 1)).flatten =
      ((rows.take n).flatten ++ rows[n].dropLast) ++ [rows[n].getLast hne] := by
    rw [List.take_add_one, List.getElem?_eq_getElem hn, List.flatten_append, List.append_assoc,
      hconcat]
    simp
  have hcount : rows[n].dropLast.countP (· = '\n') = 0 := by
    rw [List.countP_eq_zero]
    intro c hc
    rw [decide_eq_true_eq]
    rintro rfl
    exact hinner hc
  rw [lineAt, htake, hcut, countBefore_last Char.utf8Size_pos, List.countP_append, h.count_take hn,
    hcount]
  intro c hc
  rw [of_decide_eq_true hc]
  rfl

theorem exists_taken {text : Text} {rows : List Text} (hlay : splitLines text = lay 0 rows)
    (hflatten : rows.flatten = text) (hrows : Rows rows) {block : Block}
    (hle : block.first ≤ block.last) (hlast : block.last < rows.length) :
    ∃ first last content, Taken text block first last content := by
  have hfirst : block.first < rows.length := hle.trans_lt hlast
  refine ⟨⟨0 + byteLen (rows.take block.first).flatten,
      0 + byteLen (rows.take (block.first + 1)).flatten, opening rows[block.first]⟩,
    ⟨0 + byteLen (rows.take block.last).flatten,
      0 + byteLen (rows.take (block.last + 1)).flatten, opening rows[block.last]⟩,
    ((rows.drop block.first).take (block.last + 1 - block.first)).flatten, ?_, ?_, ?_, ?_, ?_, ?_⟩
  · rw [hlay, getElem?_lay, List.getElem?_eq_getElem hfirst]
    rfl
  · rw [hlay, getElem?_lay, List.getElem?_eq_getElem hlast]
    rfl
  · simp only [← hflatten, Nat.zero_add]
    exact slice_rows rows hle
  · have hdrop : rows.drop block.first = rows[block.first] :: rows.drop (block.first + 1) :=
      List.drop_eq_getElem_cons hfirst
    have hcount : block.last + 1 - block.first = block.last - block.first + 1 := by omega
    have hdropped := hrows.drop block.first
    rw [hdrop] at hdropped
    rw [hdrop, hcount, List.take_succ_cons, List.flatten_cons, hdropped.opening_take]
  · simp only [← hflatten, Nat.zero_add]
    exact (hrows.lineAt_start hfirst).symm
  · simp only [← hflatten, Nat.zero_add]
    exact (hrows.lineAt_last hlast).symm

theorem Taken.of_rows {text content : Text} {rows : List Text} {block : Block} {first last : Line}
    (h : Taken text block first last content) (hlay : splitLines text = lay 0 rows)
    (hflatten : rows.flatten = text) (hle : block.first ≤ block.last) :
    first.start = byteLen (rows.take block.first).flatten ∧
      last.stop = byteLen (rows.take (block.last + 1)).flatten ∧
      content = ((rows.drop block.first).take (block.last + 1 - block.first)).flatten := by
  have hfirst := h.opens
  have hlast := h.closes
  rw [hlay, getElem?_lay, Option.map_eq_some_iff] at hfirst hlast
  obtain ⟨row, _, rfl⟩ := hfirst
  obtain ⟨row', _, rfl⟩ := hlast
  have hcontent := h.cut
  simp only [← hflatten, Nat.zero_add, slice_rows rows hle, Option.some.injEq] at hcontent
  exact ⟨Nat.zero_add _, Nat.zero_add _, hcontent.symm⟩

/-- An atom that was drawn from a block. -/
structure Drawn (text : Text) (block : Block) (atom : StoredAtom) : Prop where
  kind : atom.semantic.kind = block.kind
  taken : ∃ first last, Taken text block first last atom.semantic.content ∧
    atom.semantic.source.range = ⟨block.first + 1, block.last + 1, first.start, last.stop⟩

theorem outlineOf_drawn {text : Text} {blocks : List Block} {atoms : List StoredAtom}
    (h : List.Forall₂ (Drawn text) blocks atoms) :
    outlineOf atoms = blocks.map fun block =>
      if block.kind.isHeading then
        (splitLines text)[block.first]?.map fun line => (headingLevel line.body).getD 0
      else none := by
  induction h with
  | nil => rfl
  | @cons block atom blocks atoms hdrawn _ ih =>
    obtain ⟨first, last, htaken, _⟩ := hdrawn.taken
    rw [outlineOf, List.map_cons, List.map_cons, ← ih, hdrawn.kind, htaken.opens, Option.map_some,
      levelOf, htaken.body]
    rfl

theorem laid_of_drawn {text : Text} {rows : List Text} (hlay : splitLines text = lay 0 rows)
    (hflatten : rows.flatten = text) (hrows : Rows rows) {blocks : List Block}
    {atoms : List StoredAtom} (h : List.Forall₂ (Drawn text) blocks atoms) :
    ∀ {first}, Tiled first blocks rows.length →
      Laid (byteLen (rows.take first).flatten)
        (atoms.map fun atom => atom.semantic.source.range) (byteLen text) ∧
      (atoms.flatMap fun atom => atom.semantic.content) = (rows.drop first).flatten := by
  induction h with
  | nil =>
    intro first htiled
    obtain rfl : first = rows.length := htiled
    refine ⟨?_, by simp⟩
    rw [List.take_length, hflatten]
    rfl
  | @cons block atom blocks atoms hdrawn _ ih =>
    intro first htiled
    obtain ⟨rfl, hle, hrest⟩ := htiled
    obtain ⟨hlaid, hwhole⟩ := ih hrest
    obtain ⟨firstLine, lastLine, htaken, hrange⟩ := hdrawn.taken
    obtain ⟨hstart, hstop, hcontent⟩ := htaken.of_rows hlay hflatten hle
    have hlast : block.last < rows.length := hrest.first_le
    have hne : ((rows.drop block.first).take (block.last + 1 - block.first)).flatten ≠ [] := by
      have hdrop : rows.drop block.first = rows[block.first] :: rows.drop (block.first + 1) :=
        List.drop_eq_getElem_cons (hle.trans_lt hlast)
      have hcount : block.last + 1 - block.first = block.last - block.first + 1 := by omega
      have hrow := hrows.drop block.first
      rw [hdrop] at hrow
      rw [hdrop, hcount, List.take_succ_cons, List.flatten_cons]
      exact fun h => hrow.1 (List.append_eq_nil_iff.mp h).1
    constructor
    · rw [List.map_cons, hrange]
      refine ⟨hstart, ?_, by rwa [hstop]⟩
      rw [hstop, take_flatten rows hle, byteLen_append]
      exact Nat.lt_add_of_pos_right (byteLen_pos hne)
    · rw [List.flatMap_cons, hwhole, hcontent, ← List.flatten_append]
      congr 1
      have hdrop : rows.drop (block.last + 1) =
          (rows.drop block.first).drop (block.last + 1 - block.first) := by
        rw [List.drop_drop]
        congr 1
        omega
      rw [hdrop, List.take_append_drop]

theorem pieces_of_drawn {text : Text} {rows : List Text} (hlay : splitLines text = lay 0 rows)
    (hflatten : rows.flatten = text) (hrows : Rows rows) {blocks : List Block}
    {atoms : List StoredAtom} (h : List.Forall₂ (Drawn text) blocks atoms)
    (htiled : Tiled 0 blocks rows.length) : Pieces text atoms := by
  obtain ⟨hlaid, hwhole⟩ := laid_of_drawn hlay hflatten hrows h htiled
  have hdrawn : ∀ atom ∈ atoms, ∃ block, Drawn text block atom := by
    clear hlaid hwhole htiled
    induction h with
    | nil => simp
    | cons hdrawn _ ih =>
      intro atom hatom
      obtain rfl | hatom := List.mem_cons.mp hatom
      · exact ⟨_, hdrawn⟩
      · exact ih atom hatom
  refine ⟨hlaid, ?_, hwhole.trans hflatten, ?_, ?_⟩
  · intro atom hatom
    obtain ⟨block, hblock⟩ := hdrawn atom hatom
    obtain ⟨first, last, htaken, hrange⟩ := hblock.taken
    rw [hrange]
    exact htaken.cut
  · intro atom hatom
    obtain ⟨block, hblock⟩ := hdrawn atom hatom
    obtain ⟨first, last, htaken, hrange⟩ := hblock.taken
    rw [hrange]
    exact htaken.startLine
  · intro atom hatom
    obtain ⟨block, hblock⟩ := hdrawn atom hatom
    obtain ⟨first, last, htaken, hrange⟩ := hblock.taken
    rw [hrange]
    exact htaken.endLine

end Taken

section Anchors

theorem attempted_injective (base : Text) : Function.Injective (attempted base) := by
  intro n m h
  have hrepr := (List.cons.inj (List.append_cancel_left h)).2
  exact Nat.repr_injective (String.toList_injective hrepr)

theorem mem_of_freshFrom_eq_none {anchors : List Text} {base : Text} :
    ∀ {fuel attempt : ℕ} {anchor : Text},
      freshFrom anchors base (fuel + 1) attempt anchor = none →
        ∀ k < fuel, attempted base (attempt + k) ∈ anchors
  | 0, _, _, _ => by simp
  | fuel + 1, attempt, anchor, h => by
    rw [freshFrom] at h
    split at h
    · intro k hk
      cases k with
      | zero =>
        by_contra hfresh
        rw [Nat.add_zero] at hfresh
        rw [freshFrom, if_neg hfresh] at h
        cases h
      | succ k =>
        have hmem := mem_of_freshFrom_eq_none h k (by omega)
        rwa [Nat.add_assoc, Nat.add_comm 1] at hmem
    · cases h

theorem not_mem_of_freshFrom {anchors : List Text} {base : Text} :
    ∀ {fuel attempt : ℕ} {anchor fresh : Text},
      freshFrom anchors base fuel attempt anchor = some fresh → fresh ∉ anchors
  | 0, _, _, _, h => by cases h
  | fuel + 1, attempt, anchor, fresh, h => by
    rw [freshFrom] at h
    split at h
    · exact not_mem_of_freshFrom h
    · obtain rfl := Option.some.inj h
      assumption

/-- There are more attempts than anchors. -/
theorem exists_freshAnchor (anchors : List Text) (base : Text) :
    ∃ anchor, freshAnchor anchors base = some anchor ∧ anchor ∉ anchors := by
  cases h : freshAnchor anchors base with
  | some anchor => exact ⟨anchor, rfl, not_mem_of_freshFrom h⟩
  | none =>
    exfalso
    have hmem := mem_of_freshFrom_eq_none h
    have hnodup : ((List.range (anchors.length + 1)).map fun k => attempted base (2 + k)).Nodup := by
      apply List.Nodup.map _ List.nodup_range
      intro a b hab
      exact Nat.add_left_cancel (attempted_injective base hab)
    have hsubset : ((List.range (anchors.length + 1)).map fun k => attempted base (2 + k)) ⊆
        anchors := by
      intro anchor hanchor
      obtain ⟨k, hk, rfl⟩ := List.mem_map.mp hanchor
      exact hmem k (List.mem_range.mp hk)
    have hlength := (List.subperm_of_subset hnodup hsubset).length_le
    rw [List.length_map, List.length_range] at hlength
    exact Nat.not_succ_le_self _ hlength

end Anchors

section Loop

/-- The numbers of atoms under each heading, as `u32`s. -/
def countsOf (outline : Outline) : List UInt32 :=
  (List.range outline.length).map fun parent => UInt32.ofNat (outline.children (some parent))

/-- What holds after some blocks. -/
structure Held (text : Text) (blocks : List Block) (progress : Progress) : Prop where
  drawn : List.Forall₂ (Drawn text) blocks progress.atoms
  stack : progress.headingStack = Outline.stack (outlineOf progress.atoms).headings
  anchors : progress.anchors = progress.atoms.map fun atom => atom.semantic.source.anchor
  distinct : progress.anchors.Nodup
  counts : progress.childCount = countsOf (outlineOf progress.atoms)
  root : progress.rootChildren = UInt32.ofNat ((outlineOf progress.atoms).children none)
  parents : ∀ place atom, progress.atoms[place]? = some atom →
    atom.semantic.parent = ((outlineOf progress.atoms).under place).bind fun parent =>
      progress.atoms[parent]?.map fun atom => atom.semantic.id
  orders : ∀ place atom, progress.atoms[place]? = some atom →
    atom.semantic.order = UInt32.ofNat ((outlineOf progress.atoms).siblingsBefore place + 1)

theorem held_start (text : Text) : Held text [] Progress.start where
  drawn := .nil
  stack := rfl
  anchors := rfl
  distinct := List.nodup_nil
  counts := rfl
  root := rfl
  parents := by simp [Progress.start]
  orders := by simp [Progress.start]

@[simp]
theorem length_outlineOf (atoms : List StoredAtom) : (outlineOf atoms).length = atoms.length :=
  List.length_map _

theorem outlineOf_append (atoms : List StoredAtom) (atom : StoredAtom) :
    outlineOf (atoms ++ [atom]) = outlineOf atoms ++ [if atom.semantic.kind.isHeading then
      some (levelOf atom.semantic.content) else none] := by
  simp [outlineOf]

theorem nextOrder_countsOf (outline : Outline) (entry : Option ℕ) :
    ∃ counts root, nextOrder ((Outline.nearest outline.headings entry).map Prod.snd)
        (countsOf outline) (UInt32.ofNat (outline.children none)) =
          some (UInt32.ofNat ((outline ++ [entry]).siblingsBefore outline.length + 1), counts, root) ∧
      counts ++ [0] = countsOf (outline ++ [entry]) ∧
      root = UInt32.ofNat ((outline ++ [entry]).children none) := by
  have hlast : (outline ++ [entry]).children (some outline.length) = 0 := by
    rw [Outline.children_append, Outline.children_of_le le_rfl, if_neg]
    intro h
    have hlt := Outline.under_lt ((Outline.under_last outline entry).trans h)
    exact Nat.lt_irrefl _ hlt
  have hcounts : countsOf (outline ++ [entry]) = ((List.range outline.length).map fun parent =>
      UInt32.ofNat ((outline ++ [entry]).children (some parent))) ++ [0] := by
    rw [countsOf, List.length_append, List.length_singleton, List.range_succ, List.map_append,
      List.map_singleton, hlast]
    rfl
  rw [Outline.siblingsBefore_last, hcounts]
  cases hparent : (Outline.nearest outline.headings entry).map Prod.snd with
  | none =>
    refine ⟨countsOf outline, UInt32.ofNat (outline.children none) + 1, ?_, ?_, ?_⟩
    · simp [nextOrder]
    · congr 1
      apply List.map_congr_left
      intro parent _
      rw [Outline.children_append, hparent, if_neg (by simp), Nat.add_zero]
    · rw [Outline.children_append, hparent, if_pos rfl, UInt32.ofNat_add]
      rfl
  | some index =>
    have hindex : index < outline.length :=
      Outline.under_lt ((Outline.under_last outline entry).trans hparent)
    refine ⟨(countsOf outline).set index (UInt32.ofNat (outline.children (some index)) + 1),
      UInt32.ofNat (outline.children none), ?_, ?_, ?_⟩
    · simp [nextOrder, countsOf, hindex]
    · congr 1
      apply List.ext_getElem (by simp [countsOf])
      intro i hi _
      have hlt : i < outline.length := by simpa [countsOf] using hi
      by_cases hindex : index = i
      · subst hindex
        simp [countsOf, Outline.children_append, hparent]
      · simp [countsOf, Outline.children_append, hparent, hindex]
    · rw [Outline.children_append, hparent, if_neg (by simp), Nat.add_zero]

theorem parentAtom_eq {atoms : List StoredAtom} {index : Option ℕ}
    (h : ∀ place, index = some place → place < atoms.length) :
    parentAtom atoms index = some (index.bind fun place => atoms[place]?) := by
  cases index with
  | none => rfl
  | some place => simp [parentAtom, h place rfl]

theorem Held.parented {text : Text} {blocks : List Block} {progress : Progress}
    (h : Held text blocks progress) : Parented progress.atoms := by
  intro place atom hatom
  have hlt : place < (outlineOf progress.atoms).length := by
    rw [length_outlineOf]
    exact (List.getElem?_eq_some_iff.mp hatom).1
  have hparent := h.parents place atom hatom
  cases hunder : (outlineOf progress.atoms).under place with
  | none =>
    rw [hunder] at hparent
    refine .inl ⟨hparent, fun above habove => ?_⟩
    rw [(Outline.under_eq_some hlt).mpr habove] at hunder
    cases hunder
  | some above =>
    have habove : above < progress.atoms.length := by
      rw [length_outlineOf] at hlt
      exact (Outline.under_lt hunder).trans hlt
    rw [hunder, Option.bind_some, List.getElem?_eq_getElem habove] at hparent
    exact .inr ⟨above, _, List.getElem?_eq_getElem habove, (Outline.under_eq_some hlt).mp hunder,
      hparent⟩

variable [Formats] [Alphanumeric]

/-- What the atom of a block gets from the block and from the stack it is read under. -/
theorem extractBlock_spec {text content : Text} {progress : Progress} {block : Block}
    {first last : Line} (band : BandManifest) (document : DocumentDecl)
    (htaken : Taken text block first last content) {entry : Option ℕ}
    (hentry : entry = if block.kind.isHeading then some (levelOf content) else none)
    {index : Option ℕ} (hindex : (Outline.close progress.headingStack entry).head?.map Prod.snd = index)
    {order root : UInt32} {counts : List UInt32}
    (horder : nextOrder index progress.childCount progress.rootChildren = some (order, counts, root))
    (hplace : ∀ place, index = some place → place < progress.atoms.length) :
    ∃ atom layerStack, extractBlock band document text (splitLines text) progress block = some
        { atoms := progress.atoms ++ [atom]
          headingStack := match entry with
            | none => progress.headingStack
            | some level =>
              (level, progress.atoms.length) :: Outline.close progress.headingStack entry
          layerStack := layerStack
          anchors := progress.anchors ++ [atom.semantic.source.anchor]
          childCount := counts ++ [0]
          rootChildren := root } ∧
      Drawn text block atom ∧ atom.semantic.content = content ∧
      atom.semantic.source.anchor ∉ progress.anchors ∧ atom.semantic.order = order ∧
      atom.semantic.parent = index.bind fun place =>
        progress.atoms[place]?.map fun atom => atom.semantic.id := by
  have hlevel : levelOf content = (headingLevel first.body).getD 0 := by
    rw [levelOf, htaken.body]
  have hclose : (if block.kind.isHeading = true then
      progress.headingStack.dropWhile fun row => (headingLevel first.body).getD 0 ≤ row.1
      else progress.headingStack) = Outline.close progress.headingStack entry := by
    rw [hentry, hlevel]
    split <;> rfl
  have hstack : (if block.kind.isHeading = true then
      ((headingLevel first.body).getD 0, progress.atoms.length) ::
        Outline.close progress.headingStack entry
      else Outline.close progress.headingStack entry) = match entry with
        | none => progress.headingStack
        | some level =>
          (level, progress.atoms.length) :: Outline.close progress.headingStack entry := by
    rw [hentry, hlevel]
    split <;> rfl
  simp only [extractBlock, htaken.opens, htaken.closes, htaken.cut, Option.bind_eq_bind,
    Option.bind_some, hclose, hindex, parentAtom_eq hplace, horder, hstack]
  generalize baseAnchor _ _ _ _ = base
  obtain ⟨anchor, hanchor, hfresh⟩ := exists_freshAnchor progress.anchors base
  rw [hanchor, Option.bind_some]
  refine ⟨_, _, rfl, ⟨rfl, first, last, htaken, rfl⟩, rfl, hfresh, rfl, ?_⟩
  cases index <;> rfl

theorem Held.step {text content : Text} {blocks : List Block} {progress : Progress} {block : Block}
    {first last : Line} (band : BandManifest) (document : DocumentDecl)
    (h : Held text blocks progress) (htaken : Taken text block first last content) :
    ∃ next, extractBlock band document text (splitLines text) progress block = some next ∧
      Held text (blocks ++ [block]) next := by
  obtain ⟨entry, hentry⟩ : ∃ entry,
      entry = if block.kind.isHeading then some (levelOf content) else none := ⟨_, rfl⟩
  have hindex : (Outline.close progress.headingStack entry).head?.map Prod.snd =
      (Outline.nearest (outlineOf progress.atoms).headings entry).map Prod.snd := by
    rw [h.stack, Outline.head_close_stack]
  obtain ⟨counts, root, horder, hcounts, hroot⟩ :=
    nextOrder_countsOf (outlineOf progress.atoms) entry
  rw [← h.counts, ← h.root] at horder
  have hunder := Outline.under_last (outlineOf progress.atoms) entry
  have hplace : ∀ place, (Outline.nearest (outlineOf progress.atoms).headings entry).map Prod.snd =
      some place → place < progress.atoms.length := by
    intro place hplace
    have hlt := Outline.under_lt (hunder.trans hplace)
    rwa [length_outlineOf] at hlt
  obtain ⟨atom, layerStack, hrun, hdrawn, hcontent, hfresh, hatom, hparent⟩ :=
    extractBlock_spec band document htaken hentry hindex horder hplace
  have houtline : outlineOf (progress.atoms ++ [atom]) = outlineOf progress.atoms ++ [entry] := by
    rw [outlineOf_append, hdrawn.kind, hcontent, hentry]
  refine ⟨_, hrun, ?_, ?_, ?_, ?_, ?_, ?_, ?_, ?_⟩
  · exact List.rel_append h.drawn (.cons hdrawn .nil)
  · rw [houtline, Outline.headings_append, h.stack, length_outlineOf]
    cases entry <;> rfl
  · simp [h.anchors]
  · rw [List.nodup_append]
    refine ⟨h.distinct, by simp, fun a ha b hb => ?_⟩
    rw [List.mem_singleton.mp hb]
    rintro rfl
    exact hfresh ha
  · rw [houtline, hcounts]
  · rw [houtline, hroot]
  · intro place other hother
    rw [houtline]
    obtain hlt | rfl | hlt := lt_trichotomy place progress.atoms.length
    · rw [List.getElem?_append_left hlt] at hother
      rw [h.parents place other hother, Outline.under_append _ _ (by simpa using hlt)]
      apply Option.bind_congr
      intro parent hparent
      rw [List.getElem?_append_left ((Outline.under_lt hparent).trans hlt)]
    · rw [List.getElem?_concat_length] at hother
      obtain rfl := Option.some.inj hother
      rw [hparent, ← hunder, length_outlineOf]
      apply Option.bind_congr
      intro parent hparent
      rw [List.getElem?_append_left (Outline.under_lt hparent)]
    · rw [List.getElem?_eq_none (by simpa [Nat.succ_le_iff] using hlt)] at hother
      cases hother
  · intro place other hother
    rw [houtline]
    obtain hlt | rfl | hlt := lt_trichotomy place progress.atoms.length
    · rw [List.getElem?_append_left hlt] at hother
      rw [h.orders place other hother, Outline.siblingsBefore_append _ _ (by simpa using hlt)]
    · rw [List.getElem?_concat_length] at hother
      obtain rfl := Option.some.inj hother
      rw [hatom, length_outlineOf]
    · rw [List.getElem?_eq_none (by simpa [Nat.succ_le_iff] using hlt)] at hother
      cases hother

theorem Held.run {text : Text} (band : BandManifest) (document : DocumentDecl)
    {blocks more : List Block} {progress : Progress} (h : Held text blocks progress)
    (hmore : ∀ block ∈ more, ∃ first last content, Taken text block first last content) :
    ∃ next, more.foldlM (extractBlock band document text (splitLines text)) progress = some next ∧
      Held text (blocks ++ more) next := by
  induction more generalizing blocks progress with
  | nil => exact ⟨progress, rfl, by rwa [List.append_nil]⟩
  | cons block more ih =>
    obtain ⟨first, last, content, htaken⟩ := hmore block List.mem_cons_self
    obtain ⟨next, hstep, hnext⟩ := h.step band document htaken
    obtain ⟨final, hrun, hfinal⟩ := ih hnext fun block hblock =>
      hmore block (List.mem_cons_of_mem _ hblock)
    refine ⟨final, ?_, by rwa [List.append_assoc, List.singleton_append] at hfinal⟩
    rw [List.foldlM_cons, hstep]
    exact hrun

/-- Where an atom of a document says that it comes from. -/
structure IsFrom (band : BandManifest) (decl : DocumentDecl) (atom : StoredAtom) : Prop where
  ofBand : atom.band = band.id
  document : atom.semantic.source.document = band.id ++ '/' :: decl.path
  path : atom.semantic.source.path = decl.path

theorem extractBlock_source {text : Text} {lines : List Line} {progress next : Progress}
    {block : Block} {band : BandManifest} {document : DocumentDecl}
    (h : extractBlock band document text lines progress block = some next) :
    ∃ atom, next.atoms = progress.atoms ++ [atom] ∧ IsFrom band document atom := by
  simp only [extractBlock, Option.bind_eq_bind, Option.bind_eq_some_iff] at h
  obtain ⟨first, _, last, _, content, _, parent, _, order, _, anchor, _, hnext⟩ := h
  rw [← Option.some.inj hnext]
  exact ⟨_, rfl, rfl, rfl, rfl⟩

theorem extractDocument_source {band : BandManifest} {document : DocumentDecl} {text : Text}
    {ir : DocumentIr} (h : extractDocument band document text = some ir) :
    ∀ atom ∈ ir.atoms, IsFrom band document atom := by
  have hrun : ∀ (blocks : List Block) (progress final : Progress),
      blocks.foldlM (extractBlock band document text (splitLines text)) progress = some final →
      (∀ atom ∈ progress.atoms, IsFrom band document atom) →
      ∀ atom ∈ final.atoms, IsFrom band document atom := by
    intro blocks
    induction blocks with
    | nil =>
      intro progress final hfinal hall
      rw [← Option.some.inj hfinal]
      exact hall
    | cons block blocks ih =>
      intro progress final hfinal hall
      rw [List.foldlM_cons, Option.bind_eq_bind, Option.bind_eq_some_iff] at hfinal
      obtain ⟨next, hstep, hrest⟩ := hfinal
      apply ih next final hrest
      obtain ⟨new, hatoms, hnew⟩ := extractBlock_source hstep
      intro atom hatom
      rw [hatoms] at hatom
      obtain hatom | hatom := List.mem_append.mp hatom
      · exact hall atom hatom
      · rw [List.mem_singleton.mp hatom]
        exact hnew
  rw [extractDocument, Option.bind_eq_bind, Option.bind_eq_some_iff] at h
  obtain ⟨progress, hprogress, hir⟩ := h
  rw [← Option.some.inj hir]
  exact hrun _ _ _ hprogress (by simp [Progress.start])

/-- A document is always extracted; only the numbers of the atoms may be wrong. -/
theorem extractDocument_spec (band : BandManifest) (document : DocumentDecl) (text : Text) :
    ∃ ir, extractDocument band document text = some ir ∧ Pieces text ir.atoms ∧
      (ir.atoms.map fun atom => atom.semantic.source.anchor).Nodup ∧ Parented ir.atoms ∧
      outlineOf ir.atoms = outline text ∧
      ∀ place atom, ir.atoms[place]? = some atom →
        atom.semantic.order = UInt32.ofNat ((outline text).siblingsBefore place + 1) := by
  obtain ⟨rows, hlay, hflatten, hrows⟩ := rows_of_splitLines text
  have htiled : Tiled 0 (buildBlocks (splitLines text)) rows.length := by
    have h := tiled_blocksFrom 0 (splitLines text)
    rwa [Nat.zero_add, hlay, length_lay, ← hlay] at h
  have htaken : ∀ block ∈ buildBlocks (splitLines text), ∃ first last content,
      Taken text block first last content := by
    intro block hblock
    obtain ⟨hle, hlast⟩ := htiled.mem block hblock
    exact exists_taken hlay hflatten hrows hle hlast
  obtain ⟨progress, hrun, hheld⟩ := (held_start text).run band document htaken
  rw [List.nil_append] at hheld
  have houtline : outlineOf progress.atoms = outline text := outlineOf_drawn hheld.drawn
  have horders := hheld.orders
  rw [houtline] at horders
  have hdistinct := hheld.distinct
  rw [hheld.anchors] at hdistinct
  obtain ⟨ir, hir, hatoms⟩ : ∃ ir, extractDocument band document text = some ir ∧
      ir.atoms = progress.atoms := by
    rw [extractDocument, hrun]
    exact ⟨_, rfl, rfl⟩
  rw [← hatoms] at hdistinct houtline horders
  have hpieces := pieces_of_drawn hlay hflatten hrows hheld.drawn htiled
  have hparented := hheld.parented
  rw [← hatoms] at hpieces hparented
  exact ⟨ir, hir, hpieces, hdistinct, hparented, houtline, horders⟩

end Loop

section Numbers

theorem ordered_iff {atoms : List StoredAtom} (h : ∀ place atom, atoms[place]? = some atom →
    atom.semantic.order = UInt32.ofNat ((outlineOf atoms).siblingsBefore place + 1)) :
    Ordered atoms ↔ ∀ parent, (outlineOf atoms).children parent < 2 ^ 32 := by
  constructor
  · intro hordered parent
    by_contra hmany
    have hlast : 2 ^ 32 - 1 < (outlineOf atoms).children parent := by omega
    obtain ⟨place, hplace, hsiblings⟩ := (outlineOf atoms).exists_numbered hlast
    rw [length_outlineOf] at hplace
    have hnumber := hordered place _ (List.getElem?_eq_getElem hplace)
    have hbound := atoms[place].semantic.order.toNat_lt
    omega
  · intro hfew place atom hatom
    have hplace : place < (outlineOf atoms).length := by
      rw [length_outlineOf]
      exact (List.getElem?_eq_some_iff.mp hatom).1
    have hlt := Outline.siblingsBefore_lt_children hplace
    have hbound := hfew ((outlineOf atoms).under place)
    rw [h place atom hatom, UInt32.toNat_ofNat_of_lt']
    change _ < 2 ^ 32
    omega

variable [Formats] [Alphanumeric]

theorem children_lt_of_lossless {band : BandManifest} {document : DocumentDecl} {text : Text}
    (h : ∃ ir, extractDocument band document text = some ir ∧ Lossless text ir.atoms) :
    ∀ parent, (outline text).children parent < 2 ^ 32 := by
  obtain ⟨other, hother, hlossless⟩ := h
  obtain ⟨ir, hir, _, _, _, houtline, horders⟩ := extractDocument_spec band document text
  rw [hir] at hother
  obtain rfl := Option.some.inj hother
  rw [← houtline] at horders ⊢
  exact (ordered_iff horders).mp hlossless.orders

/-- The atoms of a document are the document in pieces, in order and in a tree of headings, where
no heading and no document has 2^32 atoms directly under it. -/
theorem extraction_is_lossless (band : BandManifest) (document : DocumentDecl) (text : Text) :
    (∃ ir, extractDocument band document text = some ir ∧ Lossless text ir.atoms) ↔
      ∀ parent, (outline text).children parent < 2 ^ 32 := by
  constructor
  · exact children_lt_of_lossless
  · intro hfew
    obtain ⟨ir, hir, hpieces, hanchors, hparents, houtline, horders⟩ :=
      extractDocument_spec band document text
    rw [← houtline] at horders hfew
    exact ⟨ir, hir, hpieces, hanchors, hparents, (ordered_iff horders).mpr hfew⟩

end Numbers

section TableRows

def tableRows (n : ℕ) : Text := (List.replicate n ['|', '\n']).flatten

theorem splitFrom_tableRows (n start : ℕ) :
    splitFrom start start [] (tableRows n) = lay start (List.replicate n ['|', '\n']) := by
  induction n generalizing start with
  | zero => simp [tableRows, splitFrom, lay]
  | succ n ih =>
    have hrows : tableRows (n + 1) = '|' :: '\n' :: tableRows n := by
      rw [tableRows, List.replicate_succ, List.flatten_cons]
      rfl
    rw [hrows, splitFrom, if_neg (by decide), splitFrom, if_pos rfl, List.replicate_succ, lay]
    exact congrArg _ (ih (start + 2))

theorem blocksFrom_tableRows (n index start : ℕ) :
    (blocksFrom index (lay start (List.replicate n ['|', '\n']))).map Block.kind =
      List.replicate n .tableRow := by
  induction n generalizing index start with
  | zero => rw [List.replicate_zero, lay, blocksFrom, List.map_nil, List.replicate_zero]
  | succ n ih =>
    have hblock : ∀ rest, blockAt (opening ['|', '\n']) rest = (.tableRow, 0) := by
      intro rest
      have hopening : opening ['|', '\n'] = ['|'] := by decide
      rw [hopening, blockAt, if_neg (by decide)]
      rfl
    rw [List.replicate_succ, lay, blocksFrom, hblock, List.map_cons, List.drop_zero, ih,
      List.replicate_succ]

theorem children_tableRows (n : ℕ) : (outline (tableRows n)).children none = n := by
  have hkinds := blocksFrom_tableRows n 0 0
  rw [← splitFrom_tableRows] at hkinds
  have houtline : outline (tableRows n) = List.replicate n none := by
    rw [outline, List.eq_replicate_iff]
    constructor
    · simpa [buildBlocks, splitLines] using congrArg List.length hkinds
    · intro entry hentry
      obtain ⟨block, hblock, rfl⟩ := List.mem_map.mp hentry
      have hkind : block.kind ∈ List.replicate n Kind.tableRow := by
        rw [← hkinds]
        exact List.mem_map_of_mem hblock
      rw [(List.mem_replicate.mp hkind).2]
      rfl
  have hunder : ∀ place ∈ List.range n, decide ((outline (tableRows n)).under place = none) = true := by
    intro place hplace
    rw [decide_eq_true_eq, Option.eq_none_iff_forall_ne_some]
    intro parent hparent
    have hlt : place < (outline (tableRows n)).length := by
      rw [houtline, List.length_replicate]
      exact List.mem_range.mp hplace
    obtain ⟨level, hlevel, _⟩ := ((Outline.under_eq_some hlt).mp hparent).heading
    rw [houtline] at hlevel
    cases (List.mem_replicate.mp (List.mem_of_getElem? hlevel)).2
  rw [Outline.children, houtline, List.length_replicate, ← houtline,
    List.countP_eq_length.mpr hunder, List.length_range]

/-- The last of 2^32 rows of a table is numbered zero. -/
theorem table_outgrows_its_numbers :
    ¬ ∃ ir, @extractDocument formats ⟨Char.isAlphanum⟩ ⟨['b'], none⟩ ⟨['p'], "raw", none⟩
      (tableRows (2 ^ 32)) = some ir ∧ Lossless (tableRows (2 ^ 32)) ir.atoms := by
  intro h
  have hfew := @children_lt_of_lossless formats ⟨Char.isAlphanum⟩ _ _ _ h none
  rw [children_tableRows] at hfew
  exact Nat.lt_irrefl _ hfew

end TableRows

end Tracefold.Db
