import NativeCode.Proofs.Compile.Data
import NativeCode.Proofs.Ir.Ranges

/-!
# Initial values in the data section

The reader checks an initial value against the range of an integer type, and the layout writes the
low bytes of the value. So the bytes of an integer, with or without a sign, are those of the whole
value. Values of the other types are not checked. That is harmless where a type has eight bytes. But
an initial value of a single has four, and what does not fit is cut off.
-/

namespace NativeCode.Assembler

open Machine

/-! ### Numbers of bytes -/

/-- The number with given bytes, the lowest first. -/
def unsigned : List (BitVec 8) → Nat
  | [] => 0
  | b :: bs => b.toNat + 2 ^ 8 * unsigned bs

/-- The number with given bytes in two's complement. -/
def signed (bs : List (BitVec 8)) : Int := (unsigned bs : Int).bmod (2 ^ (8 * bs.length))

lemma littleEndian_succ (n : Nat) (v : Word) :
    littleEndian (n + 1) v = v.extractLsb' 0 8 :: littleEndian n (v >>> 8) := by
  rw [littleEndian, List.range_succ_eq_map, List.map_cons, List.map_map]
  congr 1
  refine List.map_congr_left fun k _ => BitVec.eq_of_getLsbD_eq fun j _ => ?_
  simp only [Function.comp_apply, BitVec.getLsbD_extractLsb', BitVec.getLsbD_ushiftRight]
  congr 2
  omega

theorem unsigned_littleEndian (n : Nat) (v : Word) :
    unsigned (littleEndian n v) = v.toNat % 2 ^ (8 * n) := by
  induction n generalizing v with
  | zero => exact (Nat.mod_one _).symm
  | succ n ih =>
    rw [littleEndian_succ, unsigned, ih, BitVec.extractLsb'_toNat, BitVec.toNat_ushiftRight,
      Nat.shiftRight_zero, Nat.shiftRight_eq_div_pow, Nat.mul_succ, Nat.add_comm (8 * n),
      Nat.pow_add, Nat.mod_mul]

/-- The low bytes of a word determine it if they have its sign or if it has none. -/
theorem decodes_littleEndian_iff (w : Width) (v : Word) :
    (signed (littleEndian w.bytes v) = v.toInt ∨ unsigned (littleEndian w.bytes v) = v.toInt) ↔
      -2 ^ (w.bits - 1) ≤ v.toInt ∧ v.toInt < 2 ^ w.bits := by
  have hlt := v.isLt
  rw [signed, length_littleEndian, unsigned_littleEndian, BitVec.toInt_eq_toNat_cond, Int.bmod_def]
  generalize v.toNat = n at hlt ⊢
  cases w <;> simp only [Width.bytes, Width.bits] <;> split_ifs <;> omega

lemma signed_littleEndian_eight (v : Word) : signed (littleEndian 8 v) = v.toInt := by
  rw [signed, length_littleEndian, unsigned_littleEndian, Nat.mod_eq_of_lt v.isLt]
  exact (BitVec.toInt_eq_toNat_bmod v).symm

end NativeCode.Assembler

/-! ### Initial values that have been read -/

namespace NativeCode.Ir

lemma Reader.ensures_readInit (isConstant : Bool) (name : String) (ty : Ty) :
    Ensures (readInit isConstant name ty) fun init =>
      ∀ v, init = some v → ty.isInteger = true → ty.holds v = true := by
  have hvalue : Ensures (readInitializer ty) fun v => ty.isInteger = true → ty.holds v = true := by
    refine ensures_bind_any fun column => ensures_bind_any fun w => ?_
    cases Text.integer? w with
    | none => exact ensures_failAt _ _
    | some v =>
      refine ensures_check (ensures_failAt _ _) fun hrange => ensures_pure fun hty => ?_
      simpa [hty] using hrange
  refine ensures_bind_any fun given => ?_
  split_ifs
  · refine ensures_bind hvalue fun v hv => ensures_pure ?_
    rintro _ ⟨⟩
    exact hv
  · exact ensures_bind_any fun _ => ensures_pure (by rintro _ ⟨⟩)
  · exact ensures_pure (by rintro _ ⟨⟩)

/-- The reader checks the initial values of integers. -/
theorem Reader.holds_of_reads {isConstant : Bool} {g : Global} (h : Reads (readGlobal isConstant) g)
    {v : Word} (hinit : g.init = some v) (hty : g.ty.isInteger = true) : g.ty.holds v = true := by
  have hglobal : Ensures (readGlobal isConstant) fun g =>
      ∀ v, g.init = some v → g.ty.isInteger = true → g.ty.holds v = true := by
    refine ensures_bind_any fun name => ensures_bind_any fun _ => ensures_bind_any fun ty => ?_
    refine ensures_bind (ensures_readInit isConstant name ty) fun init hchecked => ?_
    exact ensures_bind_any fun _ => ensures_pure hchecked
  exact hglobal.of_reads h v hinit hty

lemma Ty.fits_of_holds {ty : Ty} {v : Word} (hty : ty.isInteger = true) (h : ty.holds v = true) :
    -2 ^ (8 * ty.size - 1) ≤ v.toInt ∧ v.toInt < 2 ^ (8 * ty.size) := by
  have hle := v.le_toInt
  have hlt := v.toInt_lt
  cases ty with
  | int s w =>
    cases s <;> cases w <;>
      simp only [holds, size, Width.bytes, Bool.and_eq_true, decide_eq_true_eq] at h ⊢ <;> omega
  | bool =>
    simp only [holds, size, Bool.or_eq_true, decide_eq_true_eq] at h ⊢
    omega
  | ptr =>
    simp only [size]
    omega
  | float | void | array | struct => cases hty

end NativeCode.Ir

namespace NativeCode.Compile

open NativeCode.Assembler
open Ir.Reader (readModule readGlobal Reads)
open Machine

variable {o : Options} {m : Ir.Module} {g : Ir.Global} {v : Word}

lemma fits_iff_of_reads {isConstant : Bool} (h : Reads (readGlobal isConstant) g)
    (hinit : g.init = some v) (hsize : g.ty.size ≠ 0) (hagg : g.ty.isAggregate = false) :
    (-2 ^ (8 * g.ty.size - 1) ≤ v.toInt ∧ v.toInt < 2 ^ (8 * g.ty.size)) ↔
      (g.ty = .float .single → -2 ^ 31 ≤ v.toInt ∧ v.toInt < 2 ^ 32) := by
  have hle := v.le_toInt
  have hlt := v.toInt_lt
  by_cases hty : g.ty.isInteger = true
  · refine ⟨fun _ he => ?_, fun _ => Ir.Ty.fits_of_holds hty (Ir.Reader.holds_of_reads h hinit hty)⟩
    rw [he] at hty
    cases hty
  · cases he : g.ty with
    | float q =>
      cases q with
      | single => exact ⟨fun hfits _ => hfits, fun hfits => hfits rfl⟩
      | double =>
        have hfits : -2 ^ 63 ≤ v.toInt ∧ v.toInt < 2 ^ 64 := by omega
        exact ⟨fun _ => by rintro ⟨⟩, fun _ => hfits⟩
    | int | bool | ptr => exact absurd (by rw [he]; rfl) hty
    | void => exact absurd (by rw [he]; rfl) hsize
    | array | struct => rw [he] at hagg; cases hagg

lemma exists_bytes {l : Listing} {trace : String} (h : listModule o m = .ok (l, trace))
    (hg : g ∈ m.globals) (hinit : g.init = some v) {start : Nat} (hstart : 8 ∣ start) :
    g.ty.size ≠ 0 ∧ ∃ image offset, assemble start l.data.toList = some image ∧
      (∀ k, (o.stem ++ g.name, k) ∈ image.labels ↔ k = offset) ∧
      (image.bytes.drop offset).take g.ty.size = littleEndian g.ty.size v := by
  obtain ⟨symbols, l', hlayout, hdata, -⟩ := exists_layoutGlobals_of_listModule h
  obtain ⟨hchecks, -, -⟩ := layoutGlobals_ok_iff.mp ⟨_, hlayout⟩
  obtain ⟨ps, u, image, hps, hlaid⟩ :=
    exists_laidOut (.empty (fun _ => start) o.stem _) (fun _ => hstart) hlayout
  rw [List.map_nil, List.nil_append] at hps
  obtain ⟨⟨g, a⟩, hp, rfl⟩ := List.mem_map.mp (hps ▸ hg)
  have hlocated := hlaid.located (fun _ => hstart) hp
  have hsec : a.sec = .data := by
    rw [hlocated.sec, Ir.Global.sec, hinit]
    rfl
  have hstem : symbols.stem = o.stem := stem_of_layoutGlobals hlayout
  refine ⟨(hchecks g hg).1, image .data, a.offset, ?_, fun k => ?_, ?_⟩
  · rw [hdata]
    exact hlaid.assembled .data
  · have hlabel := hlocated.label .data k
    rw [Ir.Global.entry, hstem] at hlabel
    rw [hlabel]
    constructor
    · rintro rfl
      rfl
    · rintro rfl
      rw [← hsec]
  · have hcontents := hlocated.contents
    rwa [hsec, Ir.Global.contents, hinit] at hcontents

/-! ### Main result -/

/-- The initial value of a scalar is given back by its bytes in the data section, read with a sign
or without one, unless it is that of a single and needs more than four bytes. In a module that has
been read and that compiles, the bytes follow the label of the global, whatever aligned address the
section starts at. Eight bytes always give the value back. -/
theorem initial_value_decodes_iff {file : Nat} {text : String} {out : Output}
    (hread : readModule file text = .ok m) (h : compileModule o m = .ok out) (hg : g ∈ m.globals)
    (hagg : g.ty.isAggregate = false) (hinit : g.init = some v) :
    ∃ l trace, listModule o m = .ok (l, trace) ∧ out.asm = (l.print o.comments).text ∧
      ∀ start, 8 ∣ start → ∃ image offset bytes, assemble start l.data.toList = some image ∧
        (∀ k, (o.stem ++ g.name, k) ∈ image.labels ↔ k = offset) ∧
        bytes = (image.bytes.drop offset).take g.ty.size ∧ bytes.length = g.ty.size ∧
        ((signed bytes = v.toInt ∨ unsigned bytes = v.toInt) ↔
          (g.ty = .float .single → -2 ^ 31 ≤ v.toInt ∧ v.toInt < 2 ^ 32)) ∧
        (g.ty.size = 8 → signed bytes = v.toInt) := by
  obtain ⟨⟨l, trace⟩, hlist, hout⟩ := exists_ok_of_bind h
  refine ⟨l, trace, hlist, by cases hout; rfl, fun start hstart => ?_⟩
  obtain ⟨hsize, image, offset, himage, hlabel, hbytes⟩ := exists_bytes hlist hg hinit hstart
  refine ⟨image, offset, _, himage, hlabel, rfl, ?_⟩
  rw [hbytes]
  refine ⟨length_littleEndian _ _, ?_, fun height => ?_⟩
  · obtain ⟨isConstant, hreads⟩ := (Ir.Reader.written_of_readModule hread).globals g hg
    have hdecodes := decodes_littleEndian_iff (Width.ofBytes g.ty.size) v
    rw [Width.bits, bytes_ofBytes_size hsize hagg] at hdecodes
    exact hdecodes.trans (fits_iff_of_reads hreads hinit hsize hagg)
  · rw [height]
    exact signed_littleEndian_eight v

def shortInitials : Ir.Module where
  globals := [{ name := "a", ty := .int false .byte, init := some 255 },
    { name := "b", ty := .int true .word, init := some (-2) }]

/-- The negative number is given back by its bytes, read with a sign. -/
theorem initial_value_decodes_iff_negative :
    ∃ out l trace image offset bytes,
      readModule 0 "global a: u8 = 255\nglobal b: i16 = -2\n" = .ok shortInitials ∧
      compileModule { stem := "_" } shortInitials = .ok out ∧
      listModule { stem := "_" } shortInitials = .ok (l, trace) ∧
      assemble 16 l.data.toList = some image ∧ ("_b", offset) ∈ image.labels ∧
      bytes = (image.bytes.drop offset).take 2 ∧ signed bytes = -2 := by
  have hread : readModule 0 "global a: u8 = 255\nglobal b: i16 = -2\n" = .ok shortInitials := by
    decide +kernel
  obtain ⟨out, hout⟩ : ∃ out, compileModule { stem := "_" } shortInitials = .ok out := ⟨_, rfl⟩
  obtain ⟨l, trace, hlist, -, hdata⟩ := initial_value_decodes_iff hread hout
    (g := { name := "b", ty := .int true .word, init := some (-2) }) (by decide) rfl rfl
  obtain ⟨image, offset, bytes, himage, hlabel, hbytes, -, hdecodes, -⟩ := hdata 16 (by decide)
  have hvalue : (-2 : Word).toInt = -2 := by decide
  have hsigned : signed bytes = -2 := by
    rcases hdecodes.mpr (by rintro ⟨⟩) with hsigned | hunsigned
    · exact hsigned.trans hvalue
    · omega
  exact ⟨out, l, trace, image, offset, bytes, hread, hout, hlist, himage, (hlabel offset).mpr rfl,
    hbytes, hsigned⟩

/-- A single whose initial value needs more than four bytes. -/
def wideSingle : Ir.Module where
  globals := [{ name := "g", ty := .float .single, init := some 4294967297 }]

/-- The value is accepted and cut off. -/
theorem initial_value_cut_off :
    readModule 0 "global g: f32 = 4294967297\n" = .ok wideSingle ∧
      ∃ out l trace image, compileModule {} wideSingle = .ok out ∧
        listModule {} wideSingle = .ok (l, trace) ∧ assemble 0 l.data.toList = some image ∧
        image.labels = [("g", 0)] ∧ image.bytes.take 4 = [1, 0, 0, 0] ∧
        signed (image.bytes.take 4) ≠ 4294967297 ∧ unsigned (image.bytes.take 4) ≠ 4294967297 := by
  refine ⟨by decide +kernel, _, _, _, ⟨[1, 0, 0, 0], [("g", 0)]⟩, rfl, rfl, ?_, ?_⟩
  · decide +kernel
  · decide

end NativeCode.Compile
