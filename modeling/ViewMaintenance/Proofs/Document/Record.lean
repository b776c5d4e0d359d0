import Mathlib.Data.List.Nodup
import ViewMaintenance.Document.Record
import ViewMaintenance.Proofs.Document.Codec

namespace ViewMaintenance

namespace Part

variable {σ β : Type} {fields fields' : List (String × Document)}

/-- What the fields of an object say about a part. It is read from the one field of its name, and
    several fields of the name say nothing. -/
def Gives (p : Part σ β) (fields : List (String × Document)) (b : β) : Prop :=
  match fields.filter (·.1 = p.name) with
  | [] => p.close none = .ok b
  | [f] => p.form.decode f.2 = .ok b
  | _ :: _ :: _ => False

/-- The fields of its name, read one after another. -/
def fillAll (p : Part σ β) (slot : Option β) (fields : List (String × Document)) :
    Except DecodeError (Option β) :=
  (fields.filter (·.1 = p.name)).foldlM (fun slot f => p.fill f.2 slot) slot

theorem exists_fillAll_iff {p : Part σ β} {b : β} :
    (∃ slot, p.fillAll none fields = .ok slot ∧ p.close slot = .ok b) ↔ p.Gives fields b := by
  unfold fillAll Gives
  generalize fields.filter (·.1 = p.name) = own
  match own with
  | [] => simp [pure, Except.pure]
  | [f] => cases hread : p.form.decode f.2 <;> simp [fill, hread, Except.map, close]
  | f :: g :: rest =>
    cases hread : p.form.decode f.2 <;>
      simp [fill, hread, Except.map, bind, Except.bind]

/-- The order of the fields, and those of other names, say nothing about a part. -/
theorem gives_congr {p : Part σ β}
    (h : (fields.filter (·.1 = p.name)).Perm (fields'.filter (·.1 = p.name))) (b : β) :
    p.Gives fields b ↔ p.Gives fields' b := by
  unfold Gives
  generalize fields.filter (·.1 = p.name) = own at h ⊢
  generalize fields'.filter (·.1 = p.name) = own' at h ⊢
  match own, own', h.length_eq with
  | [], [], _ => rfl
  | [f], [f'], _ =>
    obtain rfl : f = f' := List.singleton_perm_singleton.mp h
    rfl
  | _ :: _ :: _, _ :: _ :: _, _ => rfl

theorem Gives.length_filter_le_one {p : Part σ β} {b : β} (h : p.Gives fields b) :
    (fields.filter (·.1 = p.name)).length ≤ 1 := by
  unfold Gives at h
  generalize fields.filter (·.1 = p.name) = own at h ⊢
  match own with
  | [] => exact Nat.zero_le 1
  | [_] => exact Nat.le_refl 1

/-- What the part is read from if it is not given. -/
def absent (p : Part σ β) : Document := p.default?.elim .null p.form.encode

/-- The part is read back from what it is written as. -/
def Faithful (p : Part σ β) : Prop := @Codec.Faithful β p.form

theorem close_none_eq_ok_iff {p : Part σ β} (h : p.Faithful) {b : β} :
    p.close none = .ok b ↔ p.form.decode p.absent = .ok b := by
  unfold close absent
  cases p.default? with
  | some b' => rw [Option.elim_some, h.decode_encode]
  | none => cases hread : p.form.decode .null <;> simp [hread, Except.mapError]

end Part

namespace Record

variable {σ α β : Type} {fields fields' : List (String × Document)} {name : String}

/-- What the fields of an object say about a record: each part is read on its own. -/
def Reads (fields : List (String × Document)) : {α : Type} → Record σ α → α → Prop
  | _, make a, out => out = a
  | _, part front last, out => ∃ f b, front.Reads fields f ∧ last.Gives fields b ∧ f b = out

theorem filter_eq_nil_of_notMem (h : name ∉ fields.map Prod.fst) :
    fields.filter (·.1 = name) = [] :=
  List.filter_eq_nil_iff.mpr fun _ hf hname =>
    h (of_decide_eq_true hname ▸ List.mem_map_of_mem hf)

theorem nodup_names_part {front : Record σ (β → α)} {last : Part σ β} :
    (front.part last).names.Nodup ↔ front.names.Nodup ∧ last.name ∉ front.names := by
  rw [names, ← List.concat_eq_append, List.nodup_concat, and_comm]

theorem fill_of_notMem {r : Record σ α} (h : name ∉ r.names) (d : Document) (slots : r.Slots) :
    r.fill name d slots = .ok slots := by
  induction r with
  | make a => rfl
  | part front last ih =>
    obtain ⟨hfront, hlast⟩ : name ∉ front.names ∧ name ≠ last.name := by simpa [names] using h
    rw [fill, if_neg hlast, ih hfront slots.1]
    rfl

theorem fillAll_cons (r : Record σ α) (slots : r.Slots) (f : String × Document)
    (fields : List (String × Document)) : r.fillAll slots (f :: fields) =
      (r.fill f.1 f.2 slots).bind fun slots => r.fillAll slots fields :=
  List.foldlM_cons

theorem fillAll_part {front : Record σ (β → α)} {last : Part σ β} (h : last.name ∉ front.names)
    (slots : front.Slots) (slot : Option β) (out : (front.part last).Slots) :
    (front.part last).fillAll (slots, slot) fields = .ok out ↔
      front.fillAll slots fields = .ok out.1 ∧ last.fillAll slot fields = .ok out.2 := by
  induction fields generalizing slots slot with
  | nil =>
    constructor
    · rintro ⟨⟩
      exact ⟨rfl, rfl⟩
    · rintro ⟨⟨⟩, ⟨⟩⟩
      rfl
  | cons f fields ih =>
    rw [fillAll_cons, fillAll_cons, fill]
    by_cases hname : f.1 = last.name
    · rw [if_pos hname, fill_of_notMem (hname ▸ h)]
      have hown : last.fillAll slot (f :: fields) =
          (last.fill f.2 slot).bind fun slot => last.fillAll slot fields := by
        rw [Part.fillAll, List.filter_cons_of_pos (by simpa using hname), List.foldlM_cons]
        rfl
      rw [hown]
      cases hfill : last.fill f.2 slot with
      | error e => simp [Except.map, Except.bind]
      | ok slot' => exact ih slots slot'
    · rw [if_neg hname]
      have hown : last.fillAll slot (f :: fields) = last.fillAll slot fields := by
        rw [Part.fillAll, List.filter_cons_of_neg (by simpa using hname)]
        rfl
      rw [hown]
      cases hfill : front.fill f.1 f.2 slots with
      | error e => simp [Except.map, Except.bind]
      | ok slots' => exact ih slots' slot

theorem readFields_eq_ok {r : Record σ α} {a : α} :
    r.readFields fields = .ok a ↔
      ∃ slots, r.fillAll r.blank fields = .ok slots ∧ r.close slots = .ok a := by
  unfold readFields
  cases hfill : r.fillAll r.blank fields <;> simp [bind, Except.bind]

theorem readFields_part {front : Record σ (β → α)} {last : Part σ β}
    (h : last.name ∉ front.names) {a : α} : (front.part last).readFields fields = .ok a ↔
      ∃ f b, front.readFields fields = .ok f ∧ last.Gives fields b ∧ f b = a := by
  have hclose (out : (front.part last).Slots) : (front.part last).close out = .ok a ↔
      ∃ f b, front.close out.1 = .ok f ∧ last.close out.2 = .ok b ∧ f b = a := by
    rw [close]
    cases hfront : front.close out.1 <;> cases hlast : last.close out.2 <;>
      simp [bind, Except.bind, pure, Except.pure]
  constructor
  · intro hread
    obtain ⟨out, hfill, hout⟩ := readFields_eq_ok.mp hread
    obtain ⟨hfront, hlast⟩ := (fillAll_part h _ _ out).mp hfill
    obtain ⟨f, b, hf, hb, hfb⟩ := (hclose out).mp hout
    have hgives := Part.exists_fillAll_iff.mp ⟨_, hlast, hb⟩
    exact ⟨f, b, readFields_eq_ok.mpr ⟨_, hfront, hf⟩, hgives, hfb⟩
  · rintro ⟨f, b, hf, hb, hfb⟩
    obtain ⟨slots, hfront, hf⟩ := readFields_eq_ok.mp hf
    obtain ⟨slot, hlast, hb⟩ := Part.exists_fillAll_iff.mpr hb
    have hfill := (fillAll_part h front.blank none (slots, slot)).mpr ⟨hfront, hlast⟩
    exact readFields_eq_ok.mpr ⟨_, hfill, (hclose _).mpr ⟨f, b, hf, hb, hfb⟩⟩

/-- A record is read from the fields of an object exactly if each of its parts is. -/
theorem readFields_eq_ok_iff {r : Record σ α} (h : r.names.Nodup) {a : α} :
    r.readFields fields = .ok a ↔ r.Reads fields a := by
  induction r with
  | make a' =>
    have hblank : (make a' : Record σ _).fillAll () fields = .ok () := by
      induction fields with
      | nil => rfl
      | cons f fields ih => exact ih
    rw [readFields, Reads]
    change ((make a' : Record σ _).fillAll () fields).bind _ = _ ↔ _
    rw [hblank]
    exact ⟨fun h => (Except.ok.inj h).symm, fun h => congrArg Except.ok h.symm⟩
  | part front last ih =>
    obtain ⟨hfront, hlast⟩ := nodup_names_part.mp h
    simp only [readFields_part hlast, ih hfront, Reads]

/-- Fields of other names are passed over. -/
theorem readFields_filter (r : Record σ α) (fields : List (String × Document)) :
    r.readFields (fields.filter (·.1 ∈ r.names)) = r.readFields fields := by
  have hfill (slots : r.Slots) :
      r.fillAll slots (fields.filter (·.1 ∈ r.names)) = r.fillAll slots fields := by
    induction fields generalizing slots with
    | nil => rfl
    | cons f fields ih =>
      rw [fillAll_cons]
      by_cases hname : f.1 ∈ r.names
      · rw [List.filter_cons_of_pos (by simpa using hname), fillAll_cons]
        cases r.fill f.1 f.2 slots with
        | error e => rfl
        | ok slots' => exact ih slots'
      · rw [List.filter_cons_of_neg (by simpa using hname), fill_of_notMem hname]
        exact ih slots
  rw [readFields, hfill, readFields]

theorem reads_congr {r : Record σ α} (h : ∀ name ∈ r.names,
    (fields.filter (·.1 = name)).Perm (fields'.filter (·.1 = name))) (a : α) :
    r.Reads fields a ↔ r.Reads fields' a := by
  induction r with
  | make a' => rfl
  | part front last ih =>
    have hlast := Part.gives_congr (p := last) (h last.name (by simp [names]))
    have hfront := ih fun name hname => h name (by simp [names, hname])
    simp only [Reads, hlast, hfront]

/-- The order of the fields does not matter. -/
theorem readFields_perm {r : Record σ α} (h : r.names.Nodup) (hperm : fields.Perm fields') (a : α) :
    r.readFields fields = .ok a ↔ r.readFields fields' = .ok a := by
  rw [readFields_eq_ok_iff h, readFields_eq_ok_iff h]
  exact reads_congr (fun name _ => hperm.filter _) a

/-- A record is not read from an object that gives one of its parts twice. -/
theorem length_filter_le_one_of_readFields {r : Record σ α} (h : r.names.Nodup) {a : α}
    (hread : r.readFields fields = .ok a) (hname : name ∈ r.names) :
    (fields.filter (·.1 = name)).length ≤ 1 := by
  rw [readFields_eq_ok_iff h] at hread
  clear h
  induction r with
  | make a' => cases hname
  | part front last ih =>
    obtain ⟨f, b, hfront, hlast, -⟩ := hread
    rcases List.mem_append.mp hname with hname | hname
    · exact ih hfront hname
    · obtain rfl := List.mem_singleton.mp hname
      exact hlast.length_filter_le_one

/-- Every part is read back from what it is written as. -/
def Faithful : {α : Type} → Record σ α → Prop
  | _, make _ => True
  | _, part front last => front.Faithful ∧ last.Faithful

/-- What the part of a name is read from if it is not given. -/
def absent (name : String) : {α : Type} → Record σ α → Document
  | _, make _ => .null
  | _, part front last => if name = last.name then last.absent else front.absent name

/-- A field changes nothing for a record that has no part of its name. -/
theorem reads_append_of_notMem {r : Record σ α} (h : name ∉ r.names) (d : Document) (a : α) :
    r.Reads (fields ++ [(name, d)]) a ↔ r.Reads fields a := by
  refine reads_congr (fun other hother => .of_eq ?_) a
  have hne : name ≠ other := fun heq => h (heq ▸ hother)
  simp [hne]

/-- A part that is not given is read as `null`, or as its default if it has one. -/
theorem readFields_append_absent {r : Record σ α} (h : r.names.Nodup) (hfaithful : r.Faithful)
    (hmissing : name ∉ fields.map Prod.fst) (a : α) :
    r.readFields (fields ++ [(name, r.absent name)]) = .ok a ↔ r.readFields fields = .ok a := by
  have hnone := filter_eq_nil_of_notMem hmissing
  rw [readFields_eq_ok_iff h, readFields_eq_ok_iff h]
  induction r with
  | make a' => rfl
  | part front last ih =>
    obtain ⟨hnodup, hlast⟩ := nodup_names_part.mp h
    simp only [Reads, absent]
    by_cases hname : name = last.name
    · subst hname
      have hgives (b) :
          last.Gives (fields ++ [(last.name, last.absent)]) b ↔ last.Gives fields b := by
        simpa [Part.Gives, hnone] using (Part.close_none_eq_ok_iff hfaithful.2).symm
      simp only [↓reduceIte, hgives, reads_append_of_notMem hlast]
    · have hgives (b) :
          last.Gives (fields ++ [(name, front.absent name)]) b ↔ last.Gives fields b :=
        Part.gives_congr (.of_eq (by simp [hname])) b
      simp only [if_neg hname, hgives, ih hnodup hfaithful.1]

/-- Whether the parts from an index on have defaults. -/
def DefaultsFrom (index : Nat) : {α : Type} → Record σ α → Prop
  | _, make _ => True
  | _, part front last =>
    front.DefaultsFrom index ∧ (index ≤ front.names.length → last.default?.isSome)

theorem takeItems_part {front : Record σ (β → α)} {last : Part σ β} {whole : String}
    {items rest : List Document} {a : α} :
    (front.part last).takeItems whole items = .ok (a, rest) ↔
      ∃ f left, front.takeItems whole items = .ok (f, left) ∧ ∃ b, f b = a ∧ rest = left.tail ∧
        match left with
        | d :: _ => last.form.decode d = .ok b
        | [] => last.default? = some b := by
  rw [takeItems]
  cases hfront : front.takeItems whole items with
  | error e => simp [bind, Except.bind]
  | ok taken =>
    obtain ⟨f, left⟩ := taken
    cases left with
    | nil => cases last.default? <;> simp [bind, Except.bind, pure, Except.pure, eq_comm]
    | cons d left =>
      cases hread : last.form.decode d <;>
        simp [hread, bind, Except.bind, pure, Except.pure, eq_comm]

/-- Names and items go together one by one, also where a list of names has two parts. -/
theorem zip_append_names (front back : List String) (items : List Document) :
    (front ++ back).zip items = front.zip items ++ back.zip (items.drop front.length) := by
  induction front generalizing items with
  | nil => rfl
  | cons name front ih =>
    cases items with
    | nil => simp
    | cons d items => simp [ih]

theorem takeItems_eq_ok_iff {r : Record σ α} (h : r.names.Nodup) {whole : String}
    {items rest : List Document} {a : α} : r.takeItems whole items = .ok (a, rest) ↔
      rest = items.drop r.names.length ∧ r.DefaultsFrom items.length ∧
        r.Reads (r.names.zip items) a := by
  induction r generalizing rest with
  | make a' => simp [takeItems, names, DefaultsFrom, Reads, and_comm, eq_comm]
  | @part α β front last ih =>
    obtain ⟨hnodup, hlast⟩ := nodup_names_part.mp h
    have hnone : (front.names.zip items).filter (·.1 = last.name) = [] := by
      refine filter_eq_nil_of_notMem fun hmem => ?_
      obtain ⟨f, hf, hname⟩ := List.mem_map.mp hmem
      exact hlast (hname ▸ (List.of_mem_zip hf).1)
    rw [takeItems_part]
    simp only [ih hnodup, Reads, DefaultsFrom, names, zip_append_names]
    rw [List.length_append, List.length_singleton, ← List.drop_drop]
    cases hdrop : items.drop front.names.length with
    | nil =>
      -- The list has ended before the last part, which must have a default.
      have hlength : items.length ≤ front.names.length := List.drop_eq_nil_iff.mp hdrop
      constructor
      · rintro ⟨f, _, ⟨rfl, hdefaults, hreads⟩, b, hfb, hrest, hb⟩
        refine ⟨hrest, ⟨hdefaults, fun _ => by simp [hb]⟩, f, b, by simpa using hreads, ?_, hfb⟩
        simp [Part.Gives, Part.close, hnone, hb]
      · rintro ⟨hrest, ⟨hdefaults, hsome⟩, f, b, hreads, hgives, hfb⟩
        obtain ⟨b', hb'⟩ := Option.isSome_iff_exists.mp (hsome hlength)
        refine ⟨f, [], ⟨rfl, hdefaults, by simpa using hreads⟩, b, hfb, hrest, ?_⟩
        simpa [Part.Gives, Part.close, hnone, hb'] using hgives
    | cons d left =>
      have hlength : front.names.length < items.length := by
        have hne : items.drop front.names.length ≠ [] := by simp [hdrop]
        simpa using hne
      constructor
      · rintro ⟨f, _, ⟨rfl, hdefaults, hreads⟩, b, hfb, hrest, hb⟩
        refine ⟨hrest, ⟨hdefaults, fun hle => by omega⟩, f, b,
          (reads_append_of_notMem hlast d f).mpr hreads, ?_, hfb⟩
        simpa [Part.Gives, hnone] using hb
      · rintro ⟨hrest, ⟨hdefaults, -⟩, f, b, hreads, hgives, hfb⟩
        have hfront := (reads_append_of_notMem hlast d f).mp hreads
        refine ⟨f, _, ⟨rfl, hdefaults, hfront⟩, b, hfb, hrest, ?_⟩
        simpa [Part.Gives, hnone] using hgives

/-- A list is read as the object that gives its items the names of the parts, in their order. It
    must not be longer than that, and shorter only by parts with defaults. -/
theorem readItems_eq_ok_iff {r : Record σ α} (h : r.names.Nodup) {label : String}
    {items : List Document} {a : α} : r.readItems label items = .ok a ↔
      items.length ≤ r.names.length ∧ r.DefaultsFrom items.length ∧
        r.readFields (r.names.zip items) = .ok a := by
  rw [readFields_eq_ok_iff h]
  have htaken : r.readItems label items = .ok a ↔
      r.takeItems (counted label r.names.length) items = .ok (a, []) := by
    rw [readItems]
    match r.takeItems (counted label r.names.length) items with
    | .error _ => simp [bind, Except.bind]
    | .ok (_, []) => simp [bind, Except.bind, pure, Except.pure]
    | .ok (_, _ :: _) => simp [bind, Except.bind, throw, throwThe, MonadExceptOf.throw]
  rw [htaken, takeItems_eq_ok_iff h, eq_comm, List.drop_eq_nil_iff]

/-- What is made of the parts that a value is written with. -/
def build (s : σ) : {α : Type} → Record σ α → α
  | _, make a => a
  | _, part front last => front.build s (last.get s)

theorem map_fst_fields (r : Record σ α) (s : σ) : (r.fields s).map Prod.fst = r.names := by
  induction r with
  | make a => rfl
  | part front last ih =>
    rw [fields, List.map_append, ih]
    rfl

/-- A record is read back from the fields that it is written with. -/
theorem readFields_fields {r : Record σ α} (h : r.names.Nodup) (hfaithful : r.Faithful) (s : σ) :
    r.readFields (r.fields s) = .ok (r.build s) := by
  rw [readFields_eq_ok_iff h]
  induction r with
  | make a => rfl
  | part front last ih =>
    obtain ⟨hnodup, hlast⟩ := nodup_names_part.mp h
    have hnone : (front.fields s).filter (·.1 = last.name) = [] :=
      filter_eq_nil_of_notMem (map_fst_fields front s ▸ hlast)
    refine ⟨front.build s, last.get s, ?_, ?_, rfl⟩
    · exact (reads_append_of_notMem hlast _ _).mpr (ih hnodup hfaithful.1)
    · have hread := hfaithful.2.decode_encode (last.get s)
      simpa [fields, Part.Gives, Part.field, hnone] using hread

theorem faithful_make {a : α} : (make a : Record σ α).Faithful := trivial

theorem Faithful.field [Codec β] [Codec.Faithful β] {r : Record σ (β → α)} {name : String}
    {get : σ → β} (h : r.Faithful) : (r.field name get).Faithful :=
  ⟨h, inferInstanceAs (Codec.Faithful β)⟩

theorem Faithful.fieldD [Codec β] [Codec.Faithful β] {r : Record σ (β → α)} {name : String}
    {get : σ → β} {default : σ} (h : r.Faithful) : (r.fieldD name get default).Faithful :=
  ⟨h, inferInstanceAs (Codec.Faithful β)⟩

/-- A type of records is read back from its documents if its parts are. -/
theorem faithful_codec (r : Record σ σ) {label : String} (h : r.names.Nodup)
    (hfaithful : r.Faithful) (hbuild : ∀ s, r.build s = s) : @Codec.Faithful σ (r.codec label) :=
  @Codec.Faithful.mk σ (r.codec label) fun s =>
    (readFields_fields h hfaithful s).trans (congrArg Except.ok (hbuild s))

end Record

end ViewMaintenance
