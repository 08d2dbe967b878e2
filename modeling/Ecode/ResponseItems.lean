-- The items of a conversation (protocol/src/models.rs) and the errors of a request
-- (core/src/error.rs).
import Ecode.Text

namespace Ecode

inductive ContentItem where
  | InputText (text : Text)
  | InputImage (image_url : Text)
  | OutputText (text : Text)
  deriving DecidableEq, Repr

-- `β` stands for the data that is only carried.
inductive FunctionCallOutputBody (β : Type) where
  | Text (content : Text)
  | ContentItems (items : List β)

structure FunctionCallOutputPayload (β : Type) where
  body : FunctionCallOutputBody β
  success : Option Bool

def FunctionCallOutputPayload.from_text {β : Type} (content : Text) :
    FunctionCallOutputPayload β :=
  ⟨.Text content, none⟩

/-- `Display`: the text, or the items as `to_json` writes them. -/
def FunctionCallOutputPayload.to_string {β : Type} (to_json : List β → Text)
    (payload : FunctionCallOutputPayload β) : Text :=
  match payload.body with
  | .Text content => content
  | .ContentItems items => to_json items

/-- The kinds of items that are passed on as they are. -/
inductive OtherItem where
  | AdditionalTools
  | WebSearchCall
  | ImageGenerationCall
  | GhostSnapshot
  | CompactionSummary
  | ContextCompaction
  | Other
  deriving DecidableEq, Repr

inductive ResponseItem (β : Type) where
  | Message (id : Option Text) (role : Text) (content : List ContentItem) (end_turn : Option Bool)
      (phase : Option β)
  | Reasoning (id : Option Text) (summary : β) (content : Option β) (encrypted_content : Option Text)
  | LocalShellCall (id call_id : Option Text) (body : β)
  | FunctionCall (id : Option Text) (name : Text) (namespace_ : Option Text) (arguments : Text)
      (call_id : Text)
  | ToolSearchCall (id call_id : Option Text) (body : β)
  | FunctionCallOutput (call_id : Text) (output : FunctionCallOutputPayload β)
  | CustomToolCall (id status : Option Text) (call_id name : Text) (namespace_ : Option Text)
      (input : Text)
  | CustomToolCallOutput (call_id : Text) (name : Option Text) (output : FunctionCallOutputPayload β)
  | ToolSearchOutput (call_id : Option Text) (body : β)
  | Other (kind : OtherItem) (body : β)

/-- `CodexErr`, with the texts that the retry loops read. -/
inductive CodexErr where
  | Interrupted
  | UsageLimitReached
  | UnexpectedStatus (body : Text)
  | Stream (message : Text)
  | RateLimitExceeded (message : Text)
  | Other
  deriving DecidableEq, Repr

end Ecode
