import ElmNavigator.Json.Form

/-!
# What the editor is able to do

When it connects, the editor describes its abilities.  The server does not act on them, but it refuses
an editor whose description has not the form that the protocol gives it.  Each form below lists its
fields in the order in which an array gives them.
-/

namespace ElmNavigator
namespace Server

open Json Json.Form Json.Field

/-! ## Common forms -/

def flags (names : List String) : Form :=
  record (names.map fun name => may name flag)

def registration : Form :=
  flags ["dynamicRegistration"]

def refreshing : Form :=
  flags ["refreshSupport"]

def linking : Form :=
  flags ["dynamicRegistration", "linkSupport"]

def resolving : Form :=
  record [must "properties" (listOf text)]

def codeSet : Form :=
  record [must "valueSet" (listOf code)]

def openCodeSet : Form :=
  record [may "valueSet" (listOf code)]

def tags : Form
  | .bool _ => true
  | value => codeSet value

def markup : Form :=
  listOf (oneOf ["plaintext", "markdown"])

/-! ## The workspace -/

def workspaceEdit : Form :=
  record [
    may "documentChanges" flag,
    may "resourceOperations" (listOf (oneOf ["create", "rename", "delete"])),
    may "failureHandling"
      (oneOf ["abort", "transactional", "textOnlyTransactional", "undo"]),
    may "normalizesLineEndings" flag,
    may "changeAnnotationSupport" (flags ["groupsOnLabel"])]

def workspaceSymbol : Form :=
  record [
    may "dynamicRegistration" flag,
    may "symbolKind" openCodeSet,
    mayEnd "tagSupport" tags,
    may "resolveSupport" resolving]

def fileOperations : Form :=
  flags ["dynamicRegistration", "didCreate", "willCreate", "didRename", "willRename", "didDelete",
    "willDelete"]

def workspace : Form :=
  record [
    may "applyEdit" flag,
    may "workspaceEdit" workspaceEdit,
    may "didChangeConfiguration" registration,
    may "didChangeWatchedFiles" (flags ["dynamicRegistration", "relativePatternSupport"]),
    may "symbol" workspaceSymbol,
    may "executeCommand" registration,
    may "workspaceFolders" flag,
    may "configuration" flag,
    may "semanticTokens" refreshing,
    may "codeLens" refreshing,
    may "fileOperations" fileOperations,
    may "inlineValue" refreshing,
    may "inlayHint" refreshing,
    may "diagnostic" refreshing]

/-! ## Single documents -/

def completionItem : Form :=
  record [
    may "snippetSupport" flag,
    may "commitCharactersSupport" flag,
    may "documentationFormat" markup,
    may "deprecatedSupport" flag,
    may "preselectSupport" flag,
    mayEnd "tagSupport" tags,
    may "insertReplaceSupport" flag,
    may "resolveSupport" resolving,
    may "insertTextModeSupport" codeSet,
    may "labelDetailsSupport" flag]

def completion : Form :=
  record [
    may "dynamicRegistration" flag,
    may "completionItem" completionItem,
    may "completionItemKind" openCodeSet,
    may "contextSupport" flag,
    may "insertTextMode" code,
    may "completionList" (record [may "itemDefaults" (listOf text)])]

def hover : Form :=
  record [may "dynamicRegistration" flag, may "contentFormat" markup]

def signatureHelp : Form :=
  record [
    may "dynamicRegistration" flag,
    may "signatureInformation" (record [
      may "documentationFormat" markup,
      may "parameterInformation" (flags ["labelOffsetSupport"]),
      may "activeParameterSupport" flag]),
    may "contextSupport" flag]

def documentSymbol : Form :=
  record [
    may "dynamicRegistration" flag,
    may "symbolKind" openCodeSet,
    may "hierarchicalDocumentSymbolSupport" flag,
    mayEnd "tagSupport" tags]

def codeAction : Form :=
  record [
    may "dynamicRegistration" flag,
    may "codeActionLiteralSupport"
      (record [must "codeActionKind" (record [must "valueSet" (listOf text)])]),
    may "isPreferredSupport" flag,
    may "disabledSupport" flag,
    may "dataSupport" flag,
    may "resolveSupport" resolving,
    may "honorsChangeAnnotations" flag]

def rename : Form :=
  record [
    may "dynamicRegistration" flag,
    may "prepareSupport" flag,
    may "prepareSupportDefaultBehavior" code,
    may "honorsChangeAnnotations" flag]

def publishDiagnostics : Form :=
  record [
    may "relatedInformation" flag,
    mayEnd "tagSupport" tags,
    may "versionSupport" flag,
    may "codeDescriptionSupport" flag,
    may "dataSupport" flag]

def foldingRange : Form :=
  record [
    may "dynamicRegistration" flag,
    may "rangeLimit" count,
    may "lineFoldingOnly" flag,
    may "foldingRangeKind"
      (record [may "valueSet" (listOf (oneOf ["comment", "imports", "region"]))]),
    may "foldingRange" (flags ["collapsedText"])]

def fullTokens : Form
  | .bool _ => true
  | .object values => inField (may "delta" flag) (lookup? values "delta")
  | _ => false

def semanticTokens : Form :=
  record [
    may "dynamicRegistration" flag,
    must "requests" (record [may "range" flag, may "full" fullTokens]),
    must "tokenTypes" (listOf text),
    must "tokenModifiers" (listOf text),
    must "formats" (listOf text),
    may "overlappingTokenSupport" flag,
    may "multilineTokenSupport" flag,
    may "serverCancelSupport" flag,
    may "augmentsSyntaxTokens" flag]

def textDocument : Form :=
  record [
    may "synchronization" (flags ["dynamicRegistration", "willSave", "willSaveWaitUntil", "didSave"]),
    may "completion" completion,
    may "hover" hover,
    may "signatureHelp" signatureHelp,
    may "references" registration,
    may "documentHighlight" registration,
    may "documentSymbol" documentSymbol,
    may "formatting" registration,
    may "rangeFormatting" registration,
    may "onTypeFormatting" registration,
    may "declaration" linking,
    may "definition" linking,
    may "typeDefinition" linking,
    may "implementation" linking,
    may "codeAction" codeAction,
    may "codeLens" registration,
    may "documentLink" (flags ["dynamicRegistration", "tooltipSupport"]),
    may "colorProvider" registration,
    may "rename" rename,
    may "publishDiagnostics" publishDiagnostics,
    may "foldingRange" foldingRange,
    may "selectionRange" registration,
    may "linkedEditingRange" registration,
    may "callHierarchy" registration,
    may "semanticTokens" semanticTokens,
    may "moniker" registration,
    may "typeHierarchy" registration,
    may "inlineValue" registration,
    may "inlayHint" (record [may "dynamicRegistration" flag, may "resolveSupport" resolving]),
    may "diagnostic" (flags ["dynamicRegistration", "relatedDocumentSupport"])]

/-! ## Everything else -/

def notebookDocument : Form :=
  record [must "synchronization" (flags ["dynamicRegistration", "executionSummaryReport"])]

def window : Form :=
  record [
    may "workDoneProgress" flag,
    may "showMessage"
      (record [may "messageActionItem" (flags ["additionalPropertiesSupport"])]),
    may "showDocument" (record [must "support" flag])]

def general : Form :=
  record [
    may "regularExpressions" (record [must "engine" text, may "version" text]),
    may "markdown"
      (record [must "parser" text, may "version" text, may "allowedTags" (listOf text)]),
    may "staleRequestSupport"
      (record [must "cancel" flag, must "retryOnContentModified" (listOf text)]),
    may "positionEncodings" (listOf text)]

def capabilities : Form :=
  record [
    may "workspace" workspace,
    may "textDocument" textDocument,
    may "notebookDocument" notebookDocument,
    may "window" window,
    may "general" general,
    may "experimental" any]

end Server
end ElmNavigator
