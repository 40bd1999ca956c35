import CSC209.Blocks
import CSC209.HaltingRuns

/-!
# The bitmap reader

`bitmap.c` and `main` of `bitmap_printer.c`, on the bytes of a file and a file
position. A read that does not get all of its bytes leaves the variable with
what it held, and a seek to a negative offset leaves the position alone. What
the variables of `main` hold before they are read is a parameter; memory is
taken to suffice for every picture that has a size.
-/

namespace Bitmap

open CStrings StreamIO Blocks HaltingRuns

structure Pixel where
  blue : Byte
  green : Byte
  red : Byte
  deriving DecidableEq, Repr

/-- The stream: the bytes of the file, and the position. -/
structure Image where
  bytes : List Byte
  pos : Nat

structure Metadata where
  pixelArrayOffset : Int
  width : Int
  height : Int
  deriving DecidableEq, Repr

section Source

/-- With `SEEK_SET`. -/
def Image.fseek (image : Image) (offset : Int) : Image :=
  if 0 ≤ offset then { image with pos := offset.toNat } else image

def Image.fread (image : Image) (size : Nat) : Option (List Byte) × Image :=
  let got := (image.bytes.drop image.pos).take size
  (if got.length = size then some got else none, { image with pos := image.pos + got.length })

def Image.readInt (image : Image) (old : Int) : Int × Image :=
  match image.fread 4 with
  | (some bytes, image) => (intOf bytes, image)
  | (none, image) => (old, image)

/-- The number of elements read is added up, but nothing is done with it. -/
def readBitmapMetadata (image : Image) (old : Metadata) : Metadata × Image :=
  let (offset, image) := (image.fseek 10).readInt old.pixelArrayOffset
  let (width, image) := (image.fseek 18).readInt old.width
  let (height, image) := (image.fseek 22).readInt old.height
  (⟨offset, width, height⟩, image)

def Image.readByte (image : Image) (old : Byte) : Byte × Image :=
  match image.fread 1 with
  | (some bytes, image) => (bytes.headD old, image)
  | (none, image) => (old, image)

/-- The body of the inner loop: `b`, `g` and `r` keep what is not read. -/
def readPixel (image : Image) (old : Pixel) : Pixel × Image :=
  let (b, image) := image.readByte old.blue
  let (g, image) := image.readByte old.green
  let (r, image) := image.readByte old.red
  (⟨b, g, r⟩, image)

def readRow : Nat → Image → Pixel → List Pixel × Pixel × Image
  | 0, image, current => ([], current, image)
  | cols + 1, image, current =>
    let (current, image) := readPixel image current
    let (row, last, image) := readRow cols image current
    (current :: row, last, image)

def readRows (width : Nat) : Nat → Image → Pixel → List (List Pixel)
  | 0, _, _ => []
  | rows + 1, image, current =>
    let (row, current, image) := readRow width image current
    row :: readRows width rows image current

/-- No row is allocated for a height that is not positive, and no pixel for such a width. -/
def readPixelArray (image : Image) (m : Metadata) (old : Pixel) : List (List Pixel) :=
  readRows m.width.toNat m.height.toNat (image.fseek m.pixelArrayOffset) old

def printPixel (p : Pixel) : CString :=
  text s!"({p.blue.toNat}, {p.green.toNat}, {p.red.toNat})\n"

def pixelAt (pixels : List (List Pixel)) (row col : Int) : Except Blocks.Fault Pixel := do
  let r ← peek pixels row
  peek r col

/-- The four pixels of one turn of the printing loop. -/
def corners (pixels : List (List Pixel)) (m : Metadata) (i j : Int) :
    Except Blocks.Fault (List Pixel) := do
  let topLeft ← pixelAt pixels i j
  let topRight ← pixelAt pixels i (m.width - 1 - j)
  let bottomLeft ← pixelAt pixels (m.height - 1 - i) j
  let bottomRight ← pixelAt pixels (m.height - 1 - i) (m.width - 1 - j)
  .ok [topLeft, topRight, bottomLeft, bottomRight]

/-- The values of `i` and `j`. -/
def turns : List (Nat × Nat) := (List.range 5).flatMap fun i => (List.range 5).map fun j => (i, j)

/-- The text that is printed. -/
def output (m : Metadata) (pixels : List Pixel) : CString :=
  text s!"Pixel array offset: {m.pixelArrayOffset}\nWidth: {m.width}\nHeight: {m.height}\n" ++
    pixels.flatMap printPixel

/-- `main` on a file that can be opened and closed. -/
def main (junk : Metadata) (junkPixel : Pixel) (file : List Byte) :
    Except Blocks.Fault CString := do
  let (m, image) := readBitmapMetadata ⟨file, 0⟩ junk
  let pixels := readPixelArray image m junkPixel
  let printed ← turns.mapM fun t => corners pixels m t.1 t.2
  .ok (output m printed.flatten)

end Source

section Reading

variable {file : List Byte} {base : Nat} {junk : Pixel}

/-- The last of the bytes at `base`, `base + 3` and so on that the file has, after `n` turns. -/
def lastByte (file : List Byte) (junk : Byte) (base : Nat) : Nat → Byte
  | 0 => junk
  | n + 1 => (file[base + 3 * n]?).getD (lastByte file junk base n)

/-- What `b`, `g` and `r` hold after `n` turns. -/
def pixelAfter (file : List Byte) (base : Nat) (junk : Pixel) (n : Nat) : Pixel where
  blue := lastByte file junk.blue base n
  green := lastByte file junk.green (base + 1) n
  red := lastByte file junk.red (base + 2) n

/-- The stream after `n` bytes behind `base`, as far as there are any. -/
def imageAfter (file : List Byte) (base n : Nat) : Image :=
  ⟨file, min (base + n) (max base file.length)⟩

theorem readByte_eq (n : Nat) (old : Byte) :
    (imageAfter file base n).readByte old =
    ((file[base + n]?).getD old, imageAfter file base (n + 1)) := by
  by_cases inside : base + n < file.length
  · have here : min (base + n) (max base file.length) = base + n := by omega
    have next : min (base + (n + 1)) (max base file.length) = base + n + 1 := by omega
    have one : (file.drop (base + n)).take 1 = [file[base + n]] := by
      rw [List.drop_eq_getElem_cons inside]
      rfl
    simp [Image.readByte, Image.fread, imageAfter, here, next, one, inside]
  · have here : min (base + n) (max base file.length) = max base file.length := by omega
    have next : min (base + (n + 1)) (max base file.length) = max base file.length := by omega
    have past : file.drop (max base file.length) = [] := List.drop_eq_nil_iff.mpr (by omega)
    have none : file[base + n]? = none := List.getElem?_eq_none (by omega)
    simp [Image.readByte, Image.fread, imageAfter, here, next, past, none]

theorem readPixel_eq (n : Nat) :
    readPixel (imageAfter file base (3 * n)) (pixelAfter file base junk n) =
      (pixelAfter file base junk (n + 1), imageAfter file base (3 * (n + 1))) := by
  have green : base + (3 * n + 1) = base + 1 + 3 * n := by omega
  have red : base + (3 * n + 1 + 1) = base + 2 + 3 * n := by omega
  simp only [readPixel, readByte_eq, pixelAfter, lastByte, green, red]
  rfl

theorem readRow_eq (cols n : Nat) :
    readRow cols (imageAfter file base (3 * n)) (pixelAfter file base junk n) =
      ((List.range cols).map fun c => pixelAfter file base junk (n + c + 1),
        pixelAfter file base junk (n + cols), imageAfter file base (3 * (n + cols))) := by
  induction cols generalizing n with
  | zero => rfl
  | succ cols ih =>
    have behind := ih (n + 1)
    simp only [readRow, readPixel_eq, behind, List.range_succ_eq_map, List.map_cons, List.map_map]
    refine Prod.ext ?_ ?_
    · refine congrArg (_ :: ·) (List.map_congr_left fun c _ => ?_)
      have far : n + 1 + c + 1 = n + (c + 1) + 1 := by omega
      exact congrArg (pixelAfter file base junk) far
    · have far : n + 1 + cols = n + (cols + 1) := by omega
      simp only [far]

/-- Row after row, whatever the file holds. -/
theorem readRows_eq (width rows n : Nat) :
    readRows width rows (imageAfter file base (3 * n)) (pixelAfter file base junk n) =
      (List.range rows).map fun r => (List.range width).map fun c =>
        pixelAfter file base junk (n + (r * width + c) + 1) := by
  induction rows generalizing n with
  | zero => rfl
  | succ rows ih =>
    simp only [readRows, readRow_eq, ih (n + width), List.range_succ_eq_map, List.map_cons,
      List.map_map]
    refine congrArg₂ List.cons ?_ ?_
    · simp
    · refine List.map_congr_left fun r _ => List.map_congr_left fun c _ => ?_
      have far : n + width + (r * width + c) + 1 = n + ((r + 1) * width + c) + 1 := by ring
      exact congrArg (pixelAfter file base junk) far

end Reading

section Printing

variable {file : List Byte} {junk : Metadata} {junkPixel : Pixel}

/-- A table of `rows` rows. -/
def table (rows cols : Nat) (f : Nat → Nat → Pixel) : List (List Pixel) :=
  (List.range rows).map fun r => (List.range cols).map (f r)

theorem table_get {rows cols r c : Nat} (row : r < rows) (col : c < cols) (f : Nat → Nat → Pixel) :
    ((table rows cols f)[r]?).bind (·[c]?) = some (f r c) := by
  simp [table, row, col]

theorem pixelAt_table {rows cols : Nat} {f : Nat → Nat → Pixel} {r c : Int} (row : 0 ≤ r ∧ r < rows)
    (col : 0 ≤ c ∧ c < cols) : pixelAt (table rows cols f) r c = .ok (f r.toNat c.toNat) := by
  obtain ⟨i, rfl⟩ := Int.eq_ofNat_of_zero_le row.1
  obtain ⟨j, rfl⟩ := Int.eq_ofNat_of_zero_le col.1
  have low : i < rows := Int.ofNat_lt.mp row.2
  have left : j < cols := Int.ofNat_lt.mp col.2
  have line : peek (table rows cols f) i = .ok ((List.range cols).map (f i)) :=
    peek_ofNat (by simp [table, low])
  have cell : peek ((List.range cols).map (f i)) j = .ok (f i j) := peek_ofNat (by simp [left])
  simp only [pixelAt, line, bind, Except.bind]
  exact cell

theorem pixelAt_inside {rows cols : Nat} {f : Nat → Nat → Pixel} {r c : Int} {p : Pixel}
    (read : pixelAt (table rows cols f) r c = .ok p) : r < rows ∧ c < cols := by
  cases line : peek (table rows cols f) r with
  | error e => simp [pixelAt, line, bind, Except.bind] at read
  | ok row =>
    have inside := (peek_inside line).2
    have cell : peek row c = .ok p := by simpa [pixelAt, line, bind, Except.bind] using read
    have length : row.length = cols := by
      have mem : row ∈ table rows cols f := by
        rw [peek] at line
        split at line
        · split at line
          · next found =>
            obtain rfl := Except.ok.inj line
            exact List.mem_of_getElem? found
          · cases line
        · cases line
      obtain ⟨i, _, rfl⟩ := List.mem_map.mp mem
      simp
    have beyond := (peek_inside cell).2
    simp only [table, List.length_map, List.length_range] at inside
    exact ⟨inside, length ▸ beyond⟩

/-- The pixels that are printed of a table. -/
def cornersOf (rows cols : Nat) (f : Nat → Nat → Pixel) : List Pixel :=
  turns.flatMap fun t => [f t.1 t.2, f t.1 (cols - 1 - t.2), f (rows - 1 - t.1) t.2,
    f (rows - 1 - t.1) (cols - 1 - t.2)]

theorem turns_low : ∀ t ∈ turns, t.1 < 5 ∧ t.2 < 5 := by decide

theorem corners_table {m : Metadata} (wide : 5 ≤ m.width) (high : 5 ≤ m.height)
    (f : Nat → Nat → Pixel) {i j : Nat} (low : i < 5 ∧ j < 5) :
    corners (table m.height.toNat m.width.toNat f) m i j =
      .ok [f i j, f i (m.width.toNat - 1 - j), f (m.height.toNat - 1 - i) j,
        f (m.height.toNat - 1 - i) (m.width.toNat - 1 - j)] := by
  have right : (m.width - 1 - j).toNat = m.width.toNat - 1 - j := by omega
  have bottom : (m.height - 1 - i).toNat = m.height.toNat - 1 - i := by omega
  have row : (0 : Int) ≤ i ∧ (i : Int) < m.height.toNat := by omega
  have row' : 0 ≤ m.height - 1 - i ∧ m.height - 1 - i < m.height.toNat := by omega
  have col : (0 : Int) ≤ j ∧ (j : Int) < m.width.toNat := by omega
  have col' : 0 ≤ m.width - 1 - j ∧ m.width - 1 - j < m.width.toNat := by omega
  simp only [corners, pixelAt_table row col, pixelAt_table row col', pixelAt_table row' col,
    pixelAt_table row' col', right, bottom, Int.toNat_natCast, bind, Except.bind]

theorem readInt_bytes (image : Image) (old : Int) : (image.readInt old).2.bytes = image.bytes := by
  have same : (image.fread 4).2.bytes = image.bytes := rfl
  rw [Image.readInt]
  match image.fread 4, same with
  | (some _, _), same => exact same
  | (none, _), same => exact same

theorem fseek_bytes (image : Image) (offset : Int) : (image.fseek offset).bytes = image.bytes := by
  rw [Image.fseek]
  split <;> rfl

theorem readBitmapMetadata_bytes (image : Image) (old : Metadata) :
    (readBitmapMetadata image old).2.bytes = image.bytes := by
  simp only [readBitmapMetadata, readInt_bytes, fseek_bytes]

theorem readRows_from (width rows : Nat) (image : Image) (junk : Pixel) :
    readRows width rows image junk = table rows width fun r c =>
      pixelAfter image.bytes image.pos junk (r * width + c + 1) := by
  have here : image = imageAfter image.bytes image.pos (3 * 0) := by simp [imageAfter]
  have read : readRows width rows (imageAfter image.bytes image.pos (3 * 0)) junk = _ :=
    readRows_eq width rows 0
  rw [← here] at read
  simp only [Nat.zero_add] at read
  exact read

/-- The metadata of a file; what it is too short for stays as it was. -/
def metadata (junk : Metadata) (file : List Byte) : Metadata :=
  (readBitmapMetadata ⟨file, 0⟩ junk).1

/-- Where the pixels are read from. -/
def start (junk : Metadata) (file : List Byte) : Nat :=
  ((readBitmapMetadata ⟨file, 0⟩ junk).2.fseek (metadata junk file).pixelArrayOffset).pos

/-- A colour that the file does not have is the last one of its kind that it has. -/
def pixelOf (junk : Metadata) (junkPixel : Pixel) (file : List Byte) (r c : Nat) : Pixel :=
  pixelAfter file (start junk file) junkPixel (r * (metadata junk file).width.toNat + c + 1)

/-- The picture that is read from a file. -/
def load (junk : Metadata) (junkPixel : Pixel) (file : List Byte) : List (List Pixel) :=
  readPixelArray (readBitmapMetadata ⟨file, 0⟩ junk).2 (metadata junk file) junkPixel

theorem load_eq (junk : Metadata) (junkPixel : Pixel) (file : List Byte) :
    load junk junkPixel file =
      table (metadata junk file).height.toNat (metadata junk file).width.toNat
        (pixelOf junk junkPixel file) := by
  have read := readRows_from (metadata junk file).width.toNat (metadata junk file).height.toNat
    ((readBitmapMetadata ⟨file, 0⟩ junk).2.fseek (metadata junk file).pixelArrayOffset) junkPixel
  rw [fseek_bytes, readBitmapMetadata_bytes] at read
  exact read

theorem main_eq (junk : Metadata) (junkPixel : Pixel) (file : List Byte) :
    main junk junkPixel file =
      (turns.mapM fun t =>
        corners (load junk junkPixel file) (metadata junk file) t.1 t.2) >>= fun printed =>
        .ok (output (metadata junk file) printed.flatten) := by
  rw [main, load, metadata]

/-- The turn with `i = 4` and `j = 4` reads the fifth pixel of the fifth row. -/
theorem size_of_corners {m : Metadata} {f : Nat → Nat → Pixel} {shown : List Pixel}
    (read : corners (table m.height.toNat m.width.toNat f) m (4 : Nat) (4 : Nat) = .ok shown) :
    5 ≤ m.width ∧ 5 ≤ m.height := by
  obtain ⟨p, first, _⟩ := bind_ok_iff.mp read
  obtain ⟨row, col⟩ := pixelAt_inside first
  omega

/-- `main` looks for 25 pixels in each corner. It finds them in every picture of five rows and
five columns at least, whatever the rest of the file is like, and in no other. -/
theorem prints_iff (junk : Metadata) (junkPixel : Pixel) (file : List Byte) :
    ((∃ printed, main junk junkPixel file = .ok printed) ↔
      5 ≤ (metadata junk file).width ∧ 5 ≤ (metadata junk file).height) ∧
    ∀ printed, main junk junkPixel file = .ok printed → printed = output (metadata junk file)
      (cornersOf (metadata junk file).height.toNat (metadata junk file).width.toNat
          (pixelOf junk junkPixel file)) := by
  have loop := main_eq junk junkPixel file
  rw [load_eq] at loop
  have runs : 5 ≤ (metadata junk file).width → 5 ≤ (metadata junk file).height →
      main junk junkPixel file =
        .ok (output (metadata junk file) (cornersOf (metadata junk file).height.toNat
        (metadata junk file).width.toNat (pixelOf junk junkPixel file))) := by
    intro wide high
    rw [loop,
      mapM_eq fun t mem => corners_table wide high (pixelOf junk junkPixel file) (turns_low t mem)]
    rw [cornersOf, List.flatMap]
    rfl
  have needs : ∀ printed, main junk junkPixel file = .ok printed →
      5 ≤ (metadata junk file).width ∧ 5 ≤ (metadata junk file).height := by
    intro printed ran
    rw [loop] at ran
    obtain ⟨rows, all, _⟩ := bind_ok_iff.mp ran
    obtain ⟨shown, last⟩ := mapM_turn all (4, 4) (by decide)
    exact size_of_corners last
  refine ⟨⟨fun ⟨printed, ran⟩ => needs printed ran, fun size => ⟨_, runs size.1 size.2⟩⟩,
    fun printed ran => ?_⟩
  have size := needs printed ran
  exact (Except.ok.inj ((runs size.1 size.2).symm.trans ran)).symm

/-- Twenty-six bytes that give the offset 26 and the size. -/
def smallHeader (w h : Byte) : List Byte :=
  List.replicate 10 0 ++ [26, 0, 0, 0] ++ List.replicate 4 0 ++ [w, 0, 0, 0] ++ [h, 0, 0, 0]

/-- The file ends behind the blue of its second pixel. -/
theorem prints_iff_truncated :
    main ⟨0, 0, 0⟩ ⟨0, 0, 0⟩ (smallHeader 5 5 ++ [1, 2, 3, 4]) =
      .ok (output ⟨26, 5, 5⟩
          (cornersOf 5 5 fun r c => if r = 0 ∧ c = 0 then ⟨1, 2, 3⟩ else ⟨4, 2, 3⟩)) := by
  obtain ⟨ran, printed⟩ := prints_iff ⟨0, 0, 0⟩ ⟨0, 0, 0⟩ (smallHeader 5 5 ++ [1, 2, 3, 4])
  have seen : metadata ⟨0, 0, 0⟩ (smallHeader 5 5 ++ [1, 2, 3, 4]) = ⟨26, 5, 5⟩ := by decide
  rw [seen] at ran printed
  obtain ⟨shown, done⟩ := ran.mpr ⟨by decide, by decide⟩
  have pixels : cornersOf 5 5 (pixelOf ⟨0, 0, 0⟩ ⟨0, 0, 0⟩ (smallHeader 5 5 ++ [1, 2, 3, 4])) =
      cornersOf 5 5 fun r c => if r = 0 ∧ c = 0 then ⟨1, 2, 3⟩ else ⟨4, 2, 3⟩ := by decide +kernel
  rw [done, printed shown done, ← pixels]
  rfl

end Printing

section Format

variable {header before rest : List Byte} {w h : Nat} {pad : List Byte} {rows : List (List Pixel)}

def pixelBytes (p : Pixel) : List Byte := [p.blue, p.green, p.red]

def rowBytes (pad : List Byte) (row : List Pixel) : List Byte := row.flatMap pixelBytes ++ pad

/-- A bitmap file: a header, and the rows, each with its padding. -/
def saved (header pad : List Byte) (rows : List (List Pixel)) (rest : List Byte) : List Byte :=
  header ++ (rows.flatMap (rowBytes pad) ++ rest)

/-- The header gives its own length as the offset of the pixels, and the size of the picture. -/
structure IsHeader (header : List Byte) (w h : Nat) : Prop where
  long : 26 ≤ header.length
  offset : intOf ((header.drop 10).take 4) = header.length
  width : intOf ((header.drop 18).take 4) = w
  height : intOf ((header.drop 22).take 4) = h

theorem readByte_next (b : Byte) (old : Byte) :
    (Image.mk (before ++ b :: rest) before.length).readByte old =
      (b, ⟨before ++ [b] ++ rest, (before ++ [b]).length⟩) := by
  simp [Image.readByte, Image.fread]

theorem readPixel_next (p current : Pixel) :
    readPixel ⟨before ++ (pixelBytes p ++ rest), before.length⟩ current =
      (p, ⟨before ++ pixelBytes p ++ rest, (before ++ pixelBytes p).length⟩) := by
  have bytes : pixelBytes p ++ rest = p.blue :: p.green :: p.red :: rest := rfl
  simp only [readPixel, bytes, readByte_next]
  simp [pixelBytes]

theorem readRow_next (before rest : List Byte) (row : List Pixel) (current : Pixel) :
    ∃ last, readRow row.length ⟨before ++ (row.flatMap pixelBytes ++ rest), before.length⟩ current =
      (row, last,
        ⟨before ++ row.flatMap pixelBytes ++ rest, (before ++ row.flatMap pixelBytes).length⟩) := by
  induction row generalizing before current with
  | nil => exact ⟨current, by simp [readRow]⟩
  | cons p row ih =>
    obtain ⟨last, read⟩ := ih (before ++ pixelBytes p) p
    refine ⟨last, ?_⟩
    rw [List.flatMap_cons, List.append_assoc, List.length_cons, readRow, readPixel_next]
    simp only [List.append_assoc] at read ⊢
    simp only [read]

/-- Rows without padding follow each other, and a single row has nothing behind it. -/
theorem readRows_next (before rest : List Byte) (sizes : ∀ row ∈ rows, row.length = w)
    (tight : pad = [] ∨ rows.length ≤ 1) (current : Pixel) :
    readRows w rows.length ⟨before ++ (rows.flatMap (rowBytes pad) ++ rest),
      before.length⟩ current = rows := by
  induction rows generalizing before current with
  | nil => rfl
  | cons row rows ih =>
    obtain ⟨rfl, sizes⟩ := List.forall_mem_cons.mp sizes
    have split : (row :: rows).flatMap (rowBytes pad) ++ rest =
        row.flatMap pixelBytes ++ (pad ++ (rows.flatMap (rowBytes pad) ++ rest)) := by
          simp [rowBytes]
    obtain ⟨last, read⟩ :=
      readRow_next before (pad ++ (rows.flatMap (rowBytes pad) ++ rest)) row current
    rw [split, List.length_cons, readRows, read]
    simp only [List.cons.injEq, true_and]
    rcases tight with rfl | single
    · exact ih _ sizes (.inl rfl) last
    · obtain rfl : rows = [] := List.eq_nil_of_length_eq_zero (by simpa using single)
      rfl

theorem readInt_at (image : Image) (k : Nat) (inside : k + 4 ≤ image.bytes.length) (old : Int) :
    (image.fseek k).readInt old = (intOf ((image.bytes.drop k).take 4), ⟨image.bytes, k + 4⟩) := by
  have full : ((image.bytes.drop k).take 4).length = 4 := by
    rw [List.length_take, List.length_drop]
    omega
  simp only [Image.readInt, Image.fread, Image.fseek, Int.natCast_nonneg, if_true,
    Int.toNat_natCast, full]

/-- The metadata of a header are read from the header, whatever comes behind it. -/
theorem metadata_header (known : IsHeader header w h) (junk : Metadata) (rest : List Byte) :
    readBitmapMetadata ⟨header ++ rest, 0⟩ junk =
      (⟨header.length, w, h⟩, ⟨header ++ rest, 26⟩) := by
  have long := known.long
  have slice :
      ∀ k, k + 4 ≤ header.length → ((header ++ rest).drop k).take 4 = (header.drop k).take 4 := by
    intro k low
    rw [List.drop_append_of_le_length (by omega), List.take_append_of_le_length]
    rw [List.length_drop]
    omega
  have offset := readInt_at ⟨header ++ rest, 0⟩ 10 (by simp; omega) junk.pixelArrayOffset
  have width := readInt_at ⟨header ++ rest, 14⟩ 18 (by simp; omega) junk.width
  have height := readInt_at ⟨header ++ rest, 22⟩ 22 (by simp; omega) junk.height
  simp only [slice 10 (by omega), known.offset] at offset
  simp only [slice 18 (by omega), known.width] at width
  simp only [slice 22 (by omega), known.height] at height
  simp only [Nat.cast_ofNat] at offset width height
  simp only [readBitmapMetadata, offset, width, height]

theorem metadata_saved (known : IsHeader header w h) (junk : Metadata) (rest : List Byte) :
    metadata junk (header ++ rest) = ⟨header.length, w, h⟩ ∧
    start junk (header ++ rest) = header.length := by
  have read := metadata_header known junk rest
  have seen : metadata junk (header ++ rest) = ⟨header.length, w, h⟩ := congrArg Prod.fst read
  refine ⟨seen, ?_⟩
  rw [start, seen, read]
  simp [Image.fseek]

theorem load_saved (known : IsHeader header w h) (junk : Metadata) (junkPixel : Pixel)
    (count : rows.length = h)
    (sizes : ∀ row ∈ rows, row.length = w) (tight : pad = [] ∨ h ≤ 1) (rest : List Byte) :
    load junk junkPixel (saved header pad rows rest) = rows := by
  have read := metadata_header known junk (rows.flatMap (rowBytes pad) ++ rest)
  rw [load, metadata, saved, read]
  simp only [readPixelArray, Image.fseek, Int.natCast_nonneg, if_true, Int.toNat_natCast]
  have all := readRows_next header rest sizes (count ▸ tight) junkPixel
  rwa [count] at all

theorem length_pixels (row : List Pixel) : (row.flatMap pixelBytes).length = 3 * row.length := by
  induction row with
  | nil => rfl
  | cons p row ih =>
    rw [List.flatMap_cons, List.length_append, ih, List.length_cons]
    simp only [pixelBytes, List.length_cons, List.length_nil]
    omega

/-- The blue of the first pixel of the second row is the first byte of the padding. -/
theorem second_row (pad rest : List Byte) (known : IsHeader header w h) (junk : Metadata)
    (junkPixel : Pixel) (z : Byte)
    (first : List Pixel) (size : first.length = w) (later : List (List Pixel)) :
    (pixelOf junk junkPixel (saved header (z :: pad) (first :: later) rest) 1 0).blue = z := by
  have width : (first.flatMap pixelBytes).length = 3 * w := size ▸ length_pixels first
  obtain ⟨seen, begins⟩ :=
    metadata_saved known junk ((first :: later).flatMap (rowBytes (z :: pad)) ++ rest)
  have there :
      (saved header (z :: pad) (first :: later) rest)[header.length + 3 * w]? = some z := by
    rw [saved, List.getElem?_append_right (by omega), List.flatMap_cons, rowBytes,
      List.append_assoc, List.append_assoc]
    rw [List.getElem?_append_right (by omega)]
    simp [width]
  rw [← saved] at seen begins
  simp [pixelOf, pixelAfter, seen, begins, lastByte, there]

/-- A file whose rows are padded to a multiple of four bytes is read as the picture it holds, for
every picture of its size, exactly when there is no padding behind a row that another one follows:
the rows are four pixels wide, or eight, and so on, or there is one row at most. -/
theorem reads_padded_iff (known : IsHeader header w h) (wide : 0 < w) (short : pad.length < 4)
    (aligned : (3 * w + pad.length) % 4 = 0) (junk : Metadata) (junkPixel : Pixel)
    (rest : List Byte) :
    (∀ rows : List (List Pixel), rows.length = h → (∀ row ∈ rows, row.length = w) →
      load junk junkPixel (saved header pad rows rest) = rows) ↔ w % 4 = 0 ∨ h ≤ 1 := by
  constructor
  · intro reads
    by_contra! skewed
    obtain ⟨odd, high⟩ := skewed
    obtain ⟨later, rfl⟩ : ∃ later, h = later + 2 := ⟨h - 2, by omega⟩
    obtain ⟨cols, rfl⟩ : ∃ cols, w = cols + 1 := ⟨w - 1, by omega⟩
    cases pad with
    | nil =>
      simp only [List.length_nil] at aligned
      omega
    | cons z pad =>
      -- no pixel is as blue as the padding
      let row : List Pixel := List.replicate (cols + 1) ⟨z + 1, 0, 0⟩
      have same := reads (row :: List.replicate (later + 1) row) (by simp) (by simp [row])
      have skew := second_row pad rest known junk junkPixel z row (by simp [row])
        (List.replicate (later + 1) row)
      rw [load_eq, saved, (metadata_saved known junk _).1, ← saved] at same
      simp only [Int.toNat_natCast] at same
      have entry := congrArg (fun t => (t[1]?).bind (·[0]?)) same
      have first : some (pixelOf junk junkPixel
          (saved header (z :: pad) (row :: List.replicate (later + 1) row) rest) 1 0) = some ⟨z + 1,
            0, 0⟩ := (table_get (by omega) (by omega) _).symm.trans (by simpa [row] using entry)
      rw [Option.some.inj first] at skew
      simp at skew
  · intro tight rows count sizes
    apply load_saved known junk junkPixel count sizes
    rcases tight with even | low
    · exact .inl (List.eq_nil_of_length_eq_zero (by omega))
    · exact .inr low

theorem reads_padded_iff_narrow : ¬ ∀ rows : List (List Pixel),
    rows.length = 2 → (∀ row ∈ rows, row.length = 1) →
      load ⟨0, 0, 0⟩ ⟨0, 0, 0⟩ (saved (smallHeader 1 2) [0] rows []) = rows := by
  have known : IsHeader (smallHeader 1 2) 1 2 := ⟨by decide, by decide, by decide, by decide⟩
  rw [reads_padded_iff known (by decide) (by decide) (by decide)]
  decide

end Format

end Bitmap
