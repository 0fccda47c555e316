import ElmNavigator.Server.Protocol

/-!
# Forms of parameters

Decoding a message says which parameters are acceptable only by the way.  Here the acceptable ones
are written down as forms, one for each method that is served, and decoding is shown to succeed on
exactly the values of its form.
-/

namespace ElmNavigator
namespace Json

/-! ## Shapes and forms -/

/-- A shape that is decoded from exactly the values of a form. -/
def Takes {α : Type} (shape : Json → Option α) (form : Form) : Prop :=
  forall value, (shape value).isSome = form value

theorem takes_string : Takes string? Form.text := by
  intro value
  cases value <;> rfl

theorem takes_signed32 : Takes signed32? Form.code :=
  fun _ => rfl

theorem takes_unsigned32 : Takes unsigned32? Form.count :=
  fun _ => rfl

theorem Takes.required {α : Type} {shape : Json → Option α} {form : Form} (h : Takes shape form)
    (name : String) (value : Option Json) :
    (required shape value).isSome = Form.inField (.must name form) value := by
  cases value with
  | none => rfl
  | some value => exact h value

theorem Takes.maybe {α : Type} {shape : Json → Option α} {form : Form} (h : Takes shape form)
    (name : String) (value : Option Json) :
    (maybe shape value).isSome = Form.inField (.may name form) value := by
  match value with
  | none => rfl
  | some .null => rfl
  | some (.bool _) | some (.integer _) | some (.real _ _) | some (.string _) | some (.array _)
  | some (.object _) => exact Option.isSome_map.trans (h _)

theorem Takes.list {α : Type} {shape : Json → Option α} {form : Form} (h : Takes shape form) :
    Takes (list? shape) (Form.listOf form) := by
  have hall : forall items : List Json, (items.mapM shape).isSome = items.all form := by
    intro items
    induction items with
    | nil => rfl
    | cons item items ih =>
        rw [List.all_cons, ← h item, ← ih, List.mapM_cons]
        cases shape item <;> cases items.mapM shape <;> rfl
  intro value
  cases value with
  | array items => exact hall items
  | _ => rfl

/-! ## Records -/

theorem byPosition_eq {fields : List Field}
    (h : forall field, field ∈ fields -> field.presence ≠ .omissible) {items : List Json}
    (hlength : items.length = fields.length) :
    Form.byPosition fields items =
      (fields.zip (items.map some)).all fun field => Form.inField field.1 field.2 := by
  induction fields generalizing items with
  | nil =>
      rw [List.length_eq_zero_iff.mp hlength]
      rfl
  | cons field fields ih =>
      match items, hlength with
      | item :: items, hlength =>
          rw [Form.byPosition, ih (fun _ hmem => h _ (List.mem_cons_of_mem _ hmem))
            (Nat.succ.inj hlength)]
          rfl

theorem byPosition_of_length_ne {fields : List Field}
    (h : forall field, field ∈ fields -> field.presence ≠ .omissible) {items : List Json}
    (hlength : items.length ≠ fields.length) : Form.byPosition fields items = false := by
  induction fields generalizing items with
  | nil =>
      cases items with
      | nil => exact absurd rfl hlength
      | cons item items => rfl
  | cons field fields ih =>
      cases items with
      | nil =>
          have hpresence := h field List.mem_cons_self
          simp [Form.byPosition, hpresence]
      | cons item items =>
          have hrest := ih (fun _ hmem => h _ (List.mem_cons_of_mem _ hmem))
            (fun heq => hlength (congrArg Nat.succ heq))
          rw [Form.byPosition, hrest, Bool.and_false]

/-- A record without omissible fields is taken apart into as many values as it has fields, and is of
its form if each value is. -/
theorem record_cases {fields : List Field}
    (h : forall field, field ∈ fields -> field.presence ≠ .omissible) (value : Json) :
    (value.record? (fields.map (·.name)) = none ∧ Form.record fields value = false) ∨
      exists values, value.record? (fields.map (·.name)) = some values ∧
        values.length = fields.length ∧
        Form.record fields value =
          (fields.zip values).all fun field => Form.inField field.1 field.2 := by
  cases value with
  | object given =>
      refine Or.inr ⟨_, rfl, by simp, ?_⟩
      clear h
      induction fields with
      | nil => rfl
      | cons field fields ih =>
          rw [Form.record] at ih ⊢
          rw [List.all_cons, ih]
          rfl
  | array items =>
      by_cases hlength : items.length = fields.length
      · refine Or.inr ⟨items.map some, ?_, by simpa using hlength, byPosition_eq h hlength⟩
        rw [record?, List.length_map, if_pos hlength]
      · refine Or.inl ⟨?_, byPosition_of_length_ne h hlength⟩
        rw [record?, List.length_map, if_neg hlength]
  | _ => exact Or.inl ⟨rfl, rfl⟩

theorem isSome_bind {α β : Type} {value : Option α} {next : α → Option β} {a b : Bool}
    (hvalue : value.isSome = a) (hnext : forall x, (next x).isSome = b) :
    (value >>= next).isSome = (a && b) := by
  cases value with
  | none => rw [← hvalue]; rfl
  | some x => rw [← hvalue, ← hnext x]; rfl

theorem takes_record {α : Type} {names : List String} {fields : List Field}
    {read : List (Option Json) → Option α} (hnames : fields.map (·.name) = names)
    (h : forall field, field ∈ fields -> field.presence ≠ .omissible)
    (hread : forall values, values.length = fields.length ->
      (read values).isSome =
        (fields.zip values).all fun field => Form.inField field.1 field.2) :
    Takes (fun value => value.record? names >>= read) (Form.record fields) := by
  intro value
  subst hnames
  show (value.record? (fields.map (·.name)) >>= read).isSome = Form.record fields value
  rcases record_cases h value with ⟨hnone, hform⟩ | ⟨values, hsome, hlength, hform⟩
  · rw [hnone, hform]
    rfl
  · rw [hsome, hform, ← hread values hlength]
    rfl

end Json

namespace Server

open Json

/-!
## The parts of parameters

Each is what the shape of its name decodes, without the value.
-/

namespace Forms

def uri : Form
  | .string text => (Uri.parse? text).isSome
  | _ => false

def position : Form :=
  .record [.must "line" .count, .must "character" .count]

def range : Form :=
  .record [.must "start" position, .must "end" position]

def change : Form :=
  .record [.may "range" range, .may "rangeLength" .count, .must "text" .text]

def document : Form :=
  .record [.must "uri" uri]

def versionedDocument : Form :=
  .record [.must "uri" uri, .must "version" .code]

def documentItem : Form :=
  .record [.must "uri" uri, .must "languageId" .text, .must "version" .code, .must "text" .text]

def fileEvent : Form :=
  .record [.must "uri" uri, .must "type" .code]

def settings : Form :=
  fun value => (Settings.ofJson? value).isSome

def progressToken : Form :=
  fun value => Form.text value || Form.code value

end Forms

theorem takes_uri : Takes uri? Forms.uri := by
  intro value
  cases value <;> rfl

theorem takes_progressToken : Takes progressToken? Forms.progressToken := by
  intro value
  cases value with
  | integer i => exact Option.isSome_map
  | _ => rfl

theorem takes_position : Takes position? Forms.position := by
  refine takes_record rfl (by decide) ?_
  intro values hlength
  match values, hlength with
  | [line, column], _ =>
      exact isSome_bind (takes_unsigned32.required _ line) fun _ =>
        isSome_bind (takes_unsigned32.required _ column) fun _ => rfl

theorem takes_range : Takes range? Forms.range := by
  refine takes_record rfl (by decide) ?_
  intro values hlength
  match values, hlength with
  | [start, stop], _ =>
      exact isSome_bind (takes_position.required _ start) fun _ =>
        isSome_bind (takes_position.required _ stop) fun _ => rfl

theorem takes_change : Takes change? Forms.change := by
  refine takes_record rfl (by decide) ?_
  intro values hlength
  match values, hlength with
  | [range, length, text], _ =>
      exact isSome_bind (takes_range.maybe _ range) fun _ =>
        isSome_bind (takes_unsigned32.maybe _ length) fun _ =>
          isSome_bind (takes_string.required _ text) fun _ => rfl

theorem takes_document : Takes document? Forms.document := by
  refine takes_record rfl (by decide) ?_
  intro values hlength
  match values, hlength with
  | [uri], _ => exact (takes_uri.required _ uri).trans (Bool.and_true _).symm

theorem takes_versionedDocument : Takes versionedDocument? Forms.versionedDocument := by
  refine takes_record rfl (by decide) ?_
  intro values hlength
  match values, hlength with
  | [uri, version], _ =>
      exact isSome_bind (takes_uri.required _ uri) fun _ =>
        isSome_bind (takes_signed32.required _ version) fun _ => rfl

theorem takes_documentItem : Takes documentItem? Forms.documentItem := by
  refine takes_record rfl (by decide) ?_
  intro values hlength
  match values, hlength with
  | [uri, language, version, text], _ =>
      exact isSome_bind (takes_uri.required _ uri) fun _ =>
        isSome_bind (takes_string.required _ language) fun _ =>
          isSome_bind (takes_signed32.required _ version) fun _ =>
            isSome_bind (takes_string.required _ text) fun _ => rfl

theorem takes_fileEvent : Takes fileEvent? Forms.fileEvent := by
  refine takes_record rfl (by decide) ?_
  intro values hlength
  match values, hlength with
  | [uri, type], _ =>
      exact isSome_bind (takes_uri.required _ uri) fun _ =>
        isSome_bind (takes_signed32.required _ type) fun _ => rfl

theorem takes_settings : Takes Settings.ofJson? Forms.settings :=
  fun _ => rfl

/-! ## The methods -/

namespace Forms

def named (fields : List Field) : Form
  | .object values => Form.record fields (.object values)
  | _ => false

/-- Fields that any request may have. -/
def progress : List Field :=
  [.may "workDoneToken" progressToken, .may "partialResultToken" progressToken]

/-- The requests that are served and the forms of their parameters. -/
def requests : List (String × Form) :=
  [("textDocument/definition",
      named ([.must "textDocument" document, .must "position" position] ++ progress)),
    ("textDocument/documentSymbol", named ([.must "textDocument" document] ++ progress)),
    ("workspace/symbol", named ([.must "query" .text] ++ progress))]

/-- The notifications that are taken note of and the forms of their parameters. -/
def notices : List (String × Form) :=
  [("textDocument/didOpen", .record [.must "textDocument" documentItem]),
    ("textDocument/didChange",
      .record [.must "textDocument" versionedDocument, .must "contentChanges" (.listOf change)]),
    ("textDocument/didSave", .record [.must "textDocument" document, .may "text" .text]),
    ("textDocument/didClose", .record [.must "textDocument" document]),
    ("workspace/didChangeConfiguration", .record [.must "settings" settings]),
    ("workspace/didChangeWatchedFiles", .record [.must "changes" (.listOf fileEvent)])]

def admits (forms : List (String × Form)) (method : String) (params : Json) : Bool :=
  (forms.lookup method).any fun form => form params

theorem admits_listed {forms : List (String × Form)} {method : String} {form : Form}
    (h : forms.lookup method = some form) (params : Json) :
    admits forms method params = form params := by
  rw [admits, h]
  rfl

theorem admits_eq_false {forms : List (String × Form)} {method : String} {params : Json}
    (h : forall entry, entry ∈ forms -> method = entry.1 -> entry.2 params = false) :
    admits forms method params = false := by
  rw [admits]
  cases hlookup : forms.lookup method with
  | none => rfl
  | some form =>
      rcases List.lookup_eq_some_iff.mp hlookup with ⟨before, after, rfl, _⟩
      exact h (method, form) (by simp) rfl

end Forms

theorem isSome_progressTokens (fields : List (String × Json)) (request : Request) :
    (do progressTokens? fields; return request : Option Request).isSome =
      Forms.named Forms.progress (.object fields) := by
  have htokens : (progressTokens? fields).isSome = Forms.named Forms.progress (.object fields) :=
    isSome_bind (takes_progressToken.maybe _ _) fun _ =>
      isSome_bind (takes_progressToken.maybe _ _) fun _ => rfl
  exact (isSome_bind htokens fun _ => rfl).trans (Bool.and_true _)

theorem Request.ofMethod?_isSome (method : String) (params : Json) :
    (Request.ofMethod? method params).isSome = Forms.admits Forms.requests method params := by
  cases params with
  | object fields =>
      simp only [Request.ofMethod?, object?, Option.bind_eq_bind, Option.bind_some]
      split
      · rw [Forms.admits_listed rfl]
        exact isSome_bind (takes_document.required _ _) fun _ =>
          isSome_bind (takes_position.required _ _) fun _ => isSome_progressTokens fields _
      · rw [Forms.admits_listed rfl]
        exact isSome_bind (takes_document.required _ _) fun _ => isSome_progressTokens fields _
      · rw [Forms.admits_listed rfl]
        exact isSome_bind (takes_string.required _ _) fun _ => isSome_progressTokens fields _
      · symm
        apply Forms.admits_eq_false
        simp_all [Forms.requests]
  | _ =>
      symm
      apply Forms.admits_eq_false
      simp [Forms.requests, Forms.named]

theorem Notice.ofMethod?_isSome (method : String) (params : Json) :
    (Notice.ofMethod? method params).isSome = Forms.admits Forms.notices method params := by
  unfold Notice.ofMethod?
  split
  · rw [Forms.admits_listed rfl]
    revert params
    refine takes_record rfl (by decide) ?_
    intro values hlength
    match values, hlength with
    | [document], _ => exact isSome_bind (takes_documentItem.required _ document) fun _ => rfl
  · rw [Forms.admits_listed rfl]
    revert params
    refine takes_record rfl (by decide) ?_
    intro values hlength
    match values, hlength with
    | [document, changes], _ =>
        exact isSome_bind (takes_versionedDocument.required _ document) fun _ =>
          isSome_bind (takes_change.list.required _ changes) fun _ => rfl
  · rw [Forms.admits_listed rfl]
    revert params
    refine takes_record rfl (by decide) ?_
    intro values hlength
    match values, hlength with
    | [document, text], _ =>
        exact isSome_bind (takes_document.required _ document) fun _ =>
          isSome_bind (takes_string.maybe _ text) fun _ => rfl
  · rw [Forms.admits_listed rfl]
    revert params
    refine takes_record rfl (by decide) ?_
    intro values hlength
    match values, hlength with
    | [document], _ => exact isSome_bind (takes_document.required _ document) fun _ => rfl
  · rw [Forms.admits_listed rfl]
    revert params
    refine takes_record rfl (by decide) ?_
    intro values hlength
    match values, hlength with
    | [settings], _ => exact isSome_bind (takes_settings.required _ settings) fun _ => rfl
  · rw [Forms.admits_listed rfl]
    revert params
    refine takes_record rfl (by decide) ?_
    intro values hlength
    match values, hlength with
    | [changes], _ => exact isSome_bind (takes_fileEvent.list.required _ changes) fun _ => rfl
  · symm
    apply Forms.admits_eq_false
    simp_all [Forms.notices]

end Server
end ElmNavigator
