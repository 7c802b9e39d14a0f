/-! # The script that copies frameworks

Test bundles run this script to copy third-party frameworks into themselves. -/

namespace ProjectGraph.CopyScript

/-- The name of the script's file. -/
def fileName : String := "copy-carthage-frameworks.sh"

/-- The lines of the script. -/
def lines : List String :=
  [ "#!/bin/sh",
    "#",
    "# Copies the third-party frameworks listed as input files of this build phase",
    "# from Carthage's build folder into the test bundle, then re-signs them.",
    "",
    "set -e",
    "",
    "case \"${PLATFORM_NAME}\" in",
    "    macosx) CARTHAGE_PLATFORM=\"Mac\" ;;",
    "    iphoneos|iphonesimulator) CARTHAGE_PLATFORM=\"iOS\" ;;",
    "    watchos|watchsimulator) CARTHAGE_PLATFORM=\"watchOS\" ;;",
    "    appletvos|appletvsimulator) CARTHAGE_PLATFORM=\"tvOS\" ;;",
    "    *)",
    "        echo \"error: unsupported platform ${PLATFORM_NAME}\" >&2",
    "        exit 1",
    "        ;;",
    "esac",
    "",
    "CARTHAGE_BUILD_DIR=\"${SRCROOT}/Carthage/Build/${CARTHAGE_PLATFORM}\"",
    "DESTINATION=\"${BUILT_PRODUCTS_DIR}/${FRAMEWORKS_FOLDER_PATH}\"",
    "",
    "mkdir -p \"${DESTINATION}\"",
    "",
    "i=0",
    "while [ \"${i}\" -lt \"${SCRIPT_INPUT_FILE_COUNT}\" ]; do",
    "    eval FRAMEWORK_NAME=\"\\${SCRIPT_INPUT_FILE_${i}}\"",
    "    FRAMEWORK_NAME=\"$(basename \"${FRAMEWORK_NAME}\")\"",
    "    SOURCE=\"${CARTHAGE_BUILD_DIR}/${FRAMEWORK_NAME}\"",
    "",
    "    if [ ! -d \"${SOURCE}\" ]; then",
    "        echo \"error: ${FRAMEWORK_NAME} not found in ${CARTHAGE_BUILD_DIR}\" >&2",
    "        exit 1",
    "    fi",
    "",
    "    echo \"Copying ${FRAMEWORK_NAME}\"",
    "    rsync -a --delete --exclude Headers --exclude PrivateHeaders --exclude Modules \\",
    "        \"${SOURCE}\" \"${DESTINATION}\"",
    "",
    "    if [ \"${CODE_SIGNING_REQUIRED}\" = \"YES\" ] && [ -n \"${EXPANDED_CODE_SIGN_IDENTITY}\" ]; then",
    "        codesign --force --sign \"${EXPANDED_CODE_SIGN_IDENTITY}\" --preserve-metadata=identifier,entitlements \\",
    "            \"${DESTINATION}/${FRAMEWORK_NAME}\"",
    "    fi",
    "",
    "    i=$((i + 1))",
    "done" ]

/-- The text of the script, each line with its end. -/
def text : String := "\n".intercalate lines ++ "\n"

end ProjectGraph.CopyScript
